/-
# The life of a process's allocator

A process makes calls on its allocator before there is one, while attempts to bring it up fail, and
after one of them has succeeded.  Whatever the calls are, its life has two parts.  In the first
there is no allocator, and every attempt fails as the bringing up itself does.  The second begins
with the attempt that succeeds; from there on every attempt is refused, and every other call is
served by that allocator.

Address 0 can stand for a failure because no block has it: a region begins above 0, and none of its
blocks goes beyond the last address.

Of the cell in which the allocator stands only `Once.Lawful` is used.

The main facts: `alloc_of_instance` and `dealloc_of_instance` (the calls of a process are those of
its allocator), `Holds.allocLayout` and `Holds.free` (what they do to the addresses that are held),
`waits_or_bringsUp` and `Holds.serves` (one call of either part), and `lifetime`.
-/
import BuddyTree.Shared
import BuddyTree.Proofs.Answers
import BuddyTree.Proofs.Construction
import BuddyTree.Proofs.Counters
import BuddyTree.Proofs.Listening

namespace BuddyTree

/-! ## 1. The allocator of a process -/

namespace Region

/-- Allocating is the same whoever listens, -/
theorem impartial_allocLayout (r : Region) (layout : Layout) :
    r.Impartial fun _ obs w => r.allocLayout obs layout w :=
  fun _ _ _ _ _ h w => allocLayout_mapEnv h layout w

/-- and so is taking a block back. -/
theorem impartial_dealloc (r : Region) (address : Nat) :
    r.Impartial fun _ obs w => r.dealloc obs address w := by
  intro ε ε' obs obs' g h w
  dsimp only
  unfold dealloc
  rw [free_mapEnv h]
  rcases r.free obs address w with ⟨e | _, w'⟩
  · exact congrArg (Prod.mk ()) (h _ w')
  · rfl

/-- Nobody sees the report of a failure if nobody listens. -/
theorem alone_dealloc (r : Region) (address : Nat) (m : Metadata r.depth) :
    (r.alone (fun obs w => r.dealloc obs address w) m).2 =
      (r.alone (fun obs w => r.free obs address w) m).2 := by
  simp only [alone, dealloc]
  rcases r.free (silent _) address ⟨m, ()⟩ with ⟨e | _, w⟩ <;> rfl

end Region

namespace Shared

variable {O : Once} {s : Shared O} {a : Allocator} (hO : O.Lawful)

include hO

theorem instance?_new : (new O).instance? = none :=
  hO.get?_new

theorem instance?_put (h : s.instance? = some a) (a' : Allocator) :
    (s.put a').instance? = some a' := by
  rw [instance?, put, hO.get?_modify, show O.get? s.cell = some a from h]
  rfl

/-- **A block of a process** is a block of its allocator, or address 0. -/
theorem alloc_of_instance (h : s.instance? = some a) (layout : Layout) :
    (s.alloc layout []).1.answer = (a.allocLayout layout).1.toOption.getD 0 ∧
      (s.alloc layout []).2.instance? = some (a.allocLayout layout).2 := by
  obtain ⟨r, m⟩ := a
  have halone := (r.impartial_allocLayout layout).watched_nil
    (fun (c : Command) w => c.perform r (recorder _) w) m
  obtain ⟨hresult, hstore⟩ := Prod.mk.inj halone
  simp only [alloc, h]
  refine ⟨congrArg (fun result => (Except.toOption result).getD 0) hresult, ?_⟩
  rw [instance?_put hO h]
  exact congrArg (fun m' => some (⟨r, m'⟩ : Allocator)) hstore

/-- **A release** leaves what the allocator's release leaves. -/
theorem dealloc_of_instance (h : s.instance? = some a) (address : Nat) :
    (s.dealloc address []).2.instance? = some (a.free address).2 := by
  obtain ⟨r, m⟩ := a
  have halone := (r.impartial_dealloc address).watched_nil
    (fun (c : Command) w => c.perform r (recorder _) w) m
  simp only [dealloc, h]
  rw [instance?_put hO h]
  exact congrArg (fun m' => some (⟨r, m'⟩ : Allocator))
    ((Prod.mk.inj halone).2.trans (r.alone_dealloc address m))

end Shared

/-! ## 2. What is held -/

/-- No block goes beyond the last address. -/
theorem Region.Managed.addressOf_add_le {r : Region} (hr : r.Managed) (n : Node r.depth) :
    r.addressOf n + 2 ^ n.order * r.geometry.minSize ≤ addressLimit :=
  Nat.le_trans (r.addressOf_add_le n) hr.fits

namespace Allocator

variable {r : Region} {m m' : Metadata r.depth} {a : Allocator} {held : List Nat}

/-- The calls of an allocator are those of its region. -/
theorem allocLayout_of_call {layout : Layout} {result : Except AllocError Nat}
    (h : r.call (.allocLayout layout) m = (.allocated result, m')) :
    (⟨r, m⟩ : Allocator).allocLayout layout = (result, ⟨r, m'⟩) := by
  obtain ⟨hreply, rfl⟩ := Prod.mk.inj h
  cases hreply
  rfl

theorem free_of_call {address : Nat} {result : Except FreeError Unit}
    (h : r.call (.free address) m = (.freed result, m')) :
    (⟨r, m⟩ : Allocator).free address = (result, ⟨r, m'⟩) := by
  obtain ⟨hreply, rfl⟩ := Prod.mk.inj h
  cases hreply
  rfl

/-- These are the addresses of the blocks that were handed out and not given back. -/
structure Holds (a : Allocator) (held : List Nat) : Prop where
  managed : a.region.Managed
  atRest : a.store.AtRest a.region.geometry.baseLevel
  mem : ∀ {address}, address ∈ held ↔ ∃ n, a.store.Records n ∧ a.region.addressOf n = address
  nodup : held.Nodup

/-- In blank metadata nothing is held. -/
theorem holds_blank (hr : r.Managed) (h : m = .blank r.depth) : (⟨r, m⟩ : Allocator).Holds [] := by
  subst h
  refine ⟨hr, Metadata.atRest_blank _ _, ?_, List.nodup_nil⟩
  refine fun {address} => iff_of_false List.not_mem_nil ?_
  rintro ⟨n, hn, -⟩
  exact Metadata.not_records_blank n hn

/-- **Who was just brought up** holds nothing, whatever its memory held before. -/
theorem holds_create {σ : Type} {source : Source σ} {base size : Nat} {config : Config} {s s' : σ}
    {log : List Record} (h : create source base size config s = (.ok (a, log), s')) :
    a.Holds [] := by
  obtain ⟨r, hof, rfl⟩ := eq_fresh_of_create h
  exact holds_blank (Region.managed_of hof) rfl

/-- **Allocating** fails and changes nothing, or hands out a block at an address that was not
held. -/
theorem Holds.allocLayout (h : a.Holds held) (layout : Layout) :
    (∃ e, a.allocLayout layout = (.error e, a)) ∨
    ∃ (n : Node a.region.depth) (m' : Metadata a.region.depth),
      a.allocLayout layout = (.ok (a.region.addressOf n), ⟨a.region, m'⟩) ∧ m'.Records n ∧
        a.region.addressOf n ∉ held ∧
        (⟨a.region, m'⟩ : Allocator).Holds (a.region.addressOf n :: held) := by
  obtain ⟨r, m⟩ := a
  obtain ⟨hr, hrest, hmem, hnodup⟩ := h
  dsimp only at hr hrest hmem ⊢
  rcases granted_cases hr (c := .allocLayout layout) trivial with ⟨e, hcall⟩ | ⟨l, hl, hcall⟩
  · exact .inl ⟨e, allocLayout_of_call (hcall m)⟩
  · obtain ⟨_ | n, hfirst, hgranted⟩ := hcall m hrest.toSound hrest.coversNone
    · exact .inl ⟨_, allocLayout_of_call hgranted⟩
    · have hlevel := hfirst.level_eq
      have hheld := hrest.toSound.holding_withMarks (by omega) hfirst.2.2.1
      have hrecords : ∀ b, ((m.withMarks n r.geometry.baseLevel).enter n).Records b ↔
          m.Records b ∨ b = n := fun b => Metadata.records_enter_iff hr.depth_le hheld
      have hnew : r.addressOf n ∉ held := by
        intro hin
        obtain ⟨b, hb, he⟩ := hmem.mp hin
        refine hb.ne_zero ?_
        rw [hr.firstLeaf_eq_of_addressOf he]
        exact congrArg UInt32.toNat hheld.entry_eq_zero
      refine .inr ⟨n, _, allocLayout_of_call hgranted, (hrecords n).mpr (.inr rfl), hnew, hr, ?_,
        ?_, List.nodup_cons.mpr ⟨hnew, hnodup⟩⟩
      · exact ⟨hheld.enter hr.depth_le, Metadata.quiet_marked hrest.quiet⟩
      · intro address
        simp only [List.mem_cons, hmem, hrecords, or_and_right, exists_or, exists_eq_left]
        exact or_comm.trans (or_congr_right eq_comm)

/-- **Giving back** a held address succeeds, and any other changes nothing. -/
theorem Holds.free (h : a.Holds held) (address : Nat) :
    (a.free address).2.Holds (held.erase address) ∧
      (address ∈ held → (a.free address).1 = .ok ()) ∧
      (address ∉ held → (a.free address).2 = a) := by
  obtain ⟨r, m⟩ := a
  obtain ⟨hr, hrest, hmem, hnodup⟩ := h
  dsimp only at hr hrest hmem ⊢
  by_cases hin : address ∈ held
  · obtain ⟨n, hn, rfl⟩ := hmem.mp hin
    rw [free_of_call (free_recorded hr hn (hrest.level hn) (hrest.toSound.isFree_of_records hn))]
    refine ⟨⟨hr, hrest.giveBack hn, ?_, hnodup.erase _⟩, fun _ => rfl, absurd hin⟩
    intro address
    rw [hnodup.mem_erase_iff, hmem]
    simp only [Metadata.records_giveBack_iff hn]
    constructor
    · rintro ⟨hne, b, hb, rfl⟩
      exact ⟨b, ⟨hb, fun he => hne (he ▸ rfl)⟩, rfl⟩
    · rintro ⟨b, ⟨hb, hne⟩, rfl⟩
      exact ⟨fun he => hne (hb.eq hn (hr.firstLeaf_eq_of_addressOf he)), b, hb, rfl⟩
  · obtain ⟨reply, -, hcall⟩ := free_cases r address
    have hsame := hcall m _ hrest.toListed fun n hn he => hin (hmem.mpr ⟨n, hn, he⟩)
    rw [free_of_call hsame, List.erase_of_not_mem hin]
    exact ⟨⟨hr, hrest, hmem, hnodup⟩, fun hc => absurd hc hin, fun _ => rfl⟩

end Allocator

/-! ## 3. Calls -/

/-- One call of a process.  Every attempt to bring up the allocator has a supply of its own. -/
inductive SharedCall : Type 1 where
  | init {σ : Type} (source : Source σ) (base size : Nat) (config : Config) (supply : σ)
  | get
  | alloc (layout : Layout)
  | dealloc (address : Nat)

namespace SharedCall

/-- What a call returns.  An attempt leaves a supply, too. -/
abbrev Reply : SharedCall → Type
  | @init σ _ _ _ _ _ => Except InitError Allocator × σ
  | get => Option Allocator
  | alloc _ => Nat
  | dealloc _ => Unit

/-- Make a call. -/
def perform {O : Once} (s : Shared O) : (c : SharedCall) → c.Reply × Shared O
  | init source base size config supply =>
    let ((result, _, s), supply) := s.init source base size config supply
    ((result, supply), s)
  | get => (s.instance?, s)
  | alloc layout =>
    let (outcome, s) := s.alloc layout []
    (outcome.answer, s)
  | dealloc address =>
    let (outcome, s) := s.dealloc address []
    (outcome.answer, s)

/-- Did the call bring up the allocator? -/
def succeeds : (c : SharedCall) → c.Reply → Bool
  | init .., (.ok _, _) => true
  | _, _ => false

/-- The addresses that are held after a call. -/
def held (before : List Nat) : (c : SharedCall) → c.Reply → List Nat
  | alloc _, address => if address = 0 then before else address :: before
  | dealloc address, _ => before.erase address
  | _, _ => before

/-- What a call returns while there is no allocator: an attempt, the error with which the bringing
up fails. -/
def Unserved : (c : SharedCall) → c.Reply → Prop
  | init source base size config supply, reply => ∃ e supply',
    Allocator.create source base size config supply = (.error e, supply') ∧
      reply = (.error e, supply')
  | get, found => found = none
  | alloc _, address => address = 0
  | dealloc _, _ => True

/-- The call is an attempt that brings up the allocator `a`. -/
def Bears (a : Allocator) : (c : SharedCall) → c.Reply → Prop
  | init source base size config supply, reply => ∃ log supply',
    Allocator.create source base size config supply = (.ok (a, log), supply') ∧
      reply = (.ok a, supply')
  | _, _ => False

/-- What a call returns when the allocator is `a` and these addresses are held, and the allocator
`a'` that it leaves. -/
def Served (a a' : Allocator) (before : List Nat) : (c : SharedCall) → c.Reply → Prop
  -- a meter in front of the source would have entered a request in the supply
  | init _ _ _ _ supply, reply => reply = (.error .alreadyInitialized, supply) ∧ a' = a
  | get, found => found = some a ∧ a' = a
  | alloc layout, address =>
    a' = (a.allocLayout layout).2 ∧
      (address = 0 ↔ ∃ e, (a.allocLayout layout).1 = .error e) ∧
      ∀ result, (a.allocLayout layout).1 = .ok result → address = result ∧ address ∉ before ∧
        ∃ n, a'.store.Records n ∧ a'.region.addressOf n = address ∧
          address + 2 ^ n.order * a'.region.geometry.minSize ≤ addressLimit
  | dealloc address, _ =>
    a' = (a.free address).2 ∧ (address ∈ before → (a.free address).1 = .ok ()) ∧
      (address ∉ before → a' = a)

end SharedCall

/-! ## 4. Lives -/

/-- A call that was made: its reply, and the process before and after it. -/
structure Moment (O : Once) where
  call : SharedCall
  reply : call.Reply
  before : Shared O
  after : Shared O

/-- Make a call and keep what there was to see. -/
def Shared.moment {O : Once} (s : Shared O) (c : SharedCall) : Moment O :=
  let (reply, s') := c.perform s
  ⟨c, reply, s, s'⟩

/-- Make calls one after the other. -/
def Shared.life {O : Once} (s : Shared O) : List SharedCall → List (Moment O)
  | [] => []
  | c :: rest => s.moment c :: (s.moment c).after.life rest

namespace Moment

variable {O : Once}

/-- Did the call bring up the allocator? -/
def succeeds (m : Moment O) : Bool := m.call.succeeds m.reply

/-- There was no allocator, and there still is none. -/
structure Waits (m : Moment O) : Prop where
  before : m.before.instance? = none
  after : m.after.instance? = none
  reply : m.call.Unserved m.reply

/-- There was no allocator, and now there is `a`. -/
structure BringsUp (m : Moment O) (a : Allocator) : Prop where
  before : m.before.instance? = none
  after : m.after.instance? = some a
  reply : m.call.Bears a m.reply

/-- The call was served by the allocator `a`, which is `a'` afterwards. -/
structure Serves (m : Moment O) (a a' : Allocator) (held : List Nat) : Prop where
  before : m.before.instance? = some a
  after : m.after.instance? = some a'
  reply : m.call.Served a a' held m.reply

/-- The calls were served by an allocator, one after the other, each as the calls before have left
it and the addresses that are held. -/
inductive Served : Allocator → List Nat → List (Moment O) → Prop where
  | nil {a : Allocator} {held : List Nat} : Served a held []
  | cons {a a' : Allocator} {held : List Nat} {m : Moment O} {rest : List (Moment O)} :
    m.Serves a a' held → Served a' (m.call.held held m.reply) rest → Served a held (m :: rest)

end Moment

section Life

variable {O : Once} {s : Shared O} {a : Allocator} {held : List Nat}

/-- **A call while there is no allocator** leaves none, or is the attempt that brings one up. -/
theorem waits_or_bringsUp (hO : O.Lawful) (h : s.instance? = none) (c : SharedCall) :
    (s.moment c).Waits ∨ ∃ a, (s.moment c).BringsUp a := by
  cases c with
  | get => exact .inl ⟨h, h, h⟩
  | alloc layout =>
    have hcall : s.alloc layout [] = (.quiet 0, s) := by simp only [Shared.alloc, h]
    refine .inl ⟨h, ?_, ?_⟩
    · simp only [Shared.moment, SharedCall.perform, hcall, h]
    · simp only [Shared.moment, SharedCall.perform, hcall]
      rfl
  | dealloc address =>
    have hcall : (s.dealloc address []).2 = s := by simp only [Shared.dealloc, h]
    refine .inl ⟨h, ?_, trivial⟩
    simp only [Shared.moment, SharedCall.perform, hcall, h]
  | init source base size config supply =>
    obtain ⟨cell, hcall, hcell⟩ :=
      hO.empty (Attempt.work source base size config) ⟨false, [], supply⟩ h
    cases hcreate : Allocator.create source base size config supply with
    | mk result supply' =>
      cases result with
      | error e =>
        simp only [Attempt.work, hcreate] at hcall hcell
        refine .inl ⟨h, ?_, e, supply', hcreate, ?_⟩
        · simp only [Shared.moment, SharedCall.perform, Shared.init, hcall]
          exact hcell
        · simp only [Shared.moment, SharedCall.perform, Shared.init, hcall]
      | ok made =>
        obtain ⟨a, log⟩ := made
        simp only [Attempt.work, hcreate] at hcall hcell
        refine .inr ⟨a, h, ?_, log, supply', hcreate, ?_⟩
        · simp only [Shared.moment, SharedCall.perform, Shared.init, hcall]
          exact hcell
        · simp only [Shared.moment, SharedCall.perform, Shared.init, hcall]
          rfl

/-- Who was just brought up holds nothing. -/
theorem Moment.BringsUp.holds {m : Moment O} (h : m.BringsUp a) : a.Holds [] := by
  obtain ⟨c, reply, before, after⟩ := m
  cases c with
  | init source base size config supply =>
    obtain ⟨log, supply', hcreate, -⟩ := h.reply
    exact Allocator.holds_create hcreate
  | get | alloc _ | dealloc _ => exact h.reply.elim

/-- What an allocator has for a layout is a block that was not held, or else address 0. -/
theorem Allocator.Holds.served_alloc (h : a.Holds held) (layout : Layout) {address : Nat}
    (haddress : address = (a.allocLayout layout).1.toOption.getD 0) :
    SharedCall.Served a (a.allocLayout layout).2 held (.alloc layout) address ∧
      (a.allocLayout layout).2.Holds (SharedCall.held held (.alloc layout) address) := by
  simp only [SharedCall.Served, SharedCall.held]
  rcases h.allocLayout layout with ⟨e, halloc⟩ | ⟨n, m', halloc, hn, hnew, hholds⟩
  · rw [halloc] at haddress ⊢
    obtain rfl : address = 0 := haddress
    exact ⟨⟨trivial, iff_of_true rfl ⟨e, rfl⟩, nofun⟩, h⟩
  · rw [halloc] at haddress ⊢
    obtain rfl : address = a.region.addressOf n := haddress
    have hpos := h.managed.addressOf_ne_zero n
    refine ⟨⟨trivial, iff_of_false hpos nofun, fun result hok => ?_⟩, ?_⟩
    · exact ⟨Except.ok.inj hok, hnew, n, hn, rfl, h.managed.addressOf_add_le n⟩
    · rwa [if_neg hpos]

/-- **A call that an allocator serves.** -/
theorem Allocator.Holds.serves (hO : O.Lawful) (hs : s.instance? = some a) (h : a.Holds held)
    (c : SharedCall) :
    ∃ a', (s.moment c).Serves a a' held ∧ a'.Holds (c.held held (s.moment c).reply) := by
  cases c with
  | get => exact ⟨a, ⟨hs, hs, hs, rfl⟩, h⟩
  | init source base size config supply =>
    obtain ⟨cell, hcall, hcell⟩ :=
      hO.full (Attempt.work source base size config) ⟨false, [], supply⟩ hs
    refine ⟨a, ⟨hs, ?_, ?_, rfl⟩, h⟩
    · simp only [Shared.moment, SharedCall.perform, Shared.init, hcall]
      exact hcell
    · simp only [Shared.moment, SharedCall.perform, Shared.init, hcall]
      rfl
  | alloc layout =>
    obtain ⟨hanswer, hafter⟩ := Shared.alloc_of_instance hO hs layout
    obtain ⟨hserved, hholds⟩ := h.served_alloc layout hanswer
    exact ⟨_, ⟨hs, hafter, hserved⟩, hholds⟩
  | dealloc address =>
    obtain ⟨hholds, hok, hsame⟩ := h.free address
    exact ⟨_, ⟨hs, Shared.dealloc_of_instance hO hs address, rfl, hok, hsame⟩, hholds⟩

/-- **All calls after it was brought up** are served. -/
theorem Allocator.Holds.served (hO : O.Lawful) (hs : s.instance? = some a) (h : a.Holds held)
    (cs : List SharedCall) : Moment.Served a held (s.life cs) := by
  induction cs generalizing s a held with
  | nil => exact .nil
  | cons c rest ih =>
    obtain ⟨a', hserves, hholds⟩ := h.serves hO hs c
    exact .cons hserves (ih hserves.after hholds)

/-- Nothing is brought up while there is no allocator and there stays none, -/
theorem Moment.Waits.not_succeeds {m : Moment O} (h : m.Waits) : m.succeeds = false := by
  obtain ⟨c, reply, before, after⟩ := m
  cases c with
  | init source base size config supply =>
    obtain ⟨e, supply', -, hreply⟩ := h.reply
    cases hreply
    rfl
  | get | alloc _ | dealloc _ => rfl

/-- nor once there is one. -/
theorem Moment.Serves.not_succeeds {m : Moment O} {a' : Allocator} (h : m.Serves a a' held) :
    m.succeeds = false := by
  obtain ⟨c, reply, before, after⟩ := m
  cases c with
  | init source base size config supply =>
    obtain ⟨hreply, -⟩ := h.reply
    cases hreply
    rfl
  | get | alloc _ | dealloc _ => rfl

theorem Moment.Served.countP_eq_zero {ms : List (Moment O)} (h : Moment.Served a held ms) :
    ms.countP succeeds = 0 := by
  induction h with
  | nil => rfl
  | cons hserves _ ih =>
    rw [List.countP_cons, ih, hserves.not_succeeds]
    rfl

/-- What a process goes through: a time without an allocator, and perhaps a call that brings one up
and a time in which it serves all calls. -/
structure Lived (ms : List (Moment O)) : Prop where
  /-- At most one attempt succeeds, -/
  once : ms.countP Moment.succeeds ≤ 1
  /-- the one that ends the first time. -/
  parts : ∃ waiting serving, ms = waiting ++ serving ∧ (∀ m ∈ waiting, m.Waits) ∧
    (serving = [] ∨ ∃ a first rest, serving = first :: rest ∧ first.BringsUp a ∧
      Moment.Served a [] rest)

/-- **The life of a process's allocator.** -/
theorem lifetime (hO : O.Lawful) (cs : List SharedCall) : Lived ((Shared.new O).life cs) := by
  suffices hlived : ∀ s : Shared O, s.instance? = none → Lived (s.life cs) from
    hlived _ (Shared.instance?_new hO)
  induction cs with
  | nil => exact fun s _ => ⟨Nat.zero_le _, [], [], rfl, nofun, .inl rfl⟩
  | cons c rest ih =>
    intro s hs
    rcases waits_or_bringsUp hO hs c with hwaits | ⟨a, hup⟩
    · obtain ⟨hcount, waiting, serving, hparts, hall, hserving⟩ := ih _ hwaits.after
      refine ⟨?_, s.moment c :: waiting, serving, congrArg _ hparts, ?_, hserving⟩
      · rw [Shared.life, List.countP_cons, hwaits.not_succeeds]
        exact hcount
      · exact List.forall_mem_cons.mpr ⟨hwaits, hall⟩
    · have hserved := hup.holds.served hO hup.after rest
      refine ⟨?_, [], _, rfl, nofun, .inr ⟨a, _, _, rfl, hup, hserved⟩⟩
      rw [Shared.life, List.countP_cons, hserved.countP_eq_zero]
      split <;> omega

/-- An attempt without memory for the tree fails, the next one succeeds, and a third is refused. -/
theorem lifetime_of_retry :
    let layout : Layout := ⟨4, 1, by decide, by decide⟩
    let empty : Source Nat := ⟨fun next _ => (none, next)⟩
    let cs : List SharedCall := [.alloc layout, .init empty 4096 8 ⟨1, 3⟩ Source.heapStart,
      .dealloc 4096, .init .heap 4096 8 ⟨1, 3⟩ Source.heapStart,
      .init .heap 8192 8 ⟨1, 3⟩ Source.heapStart, .alloc layout, .dealloc 4097, .dealloc 4096]
    Once.option.Lawful ∧ ((Shared.new .option).life cs).map Moment.succeeds =
      [false, false, false, true, false, false, false, false] ∧
      Lived ((Shared.new .option).life cs) := by
  intro layout empty cs
  exact ⟨Once.lawful_option, by decide +kernel, lifetime Once.lawful_option cs⟩

end Life
end BuddyTree
