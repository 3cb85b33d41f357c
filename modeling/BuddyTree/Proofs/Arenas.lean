/-
# A boot arena over a whole run

Whoever is granted memory relies on having it alone, for good.  A boot arena keeps that promise
because it never goes back: what it grants begins at or after the end of everything it has granted
before, and ends inside it.  A request that it has no room for leaves it as it was.

Sums are exact here, so there is no room for a request whose first byte or whose end would lie past
the last address.

The main facts: `Arena.serves_supply` (one request), `Arena.Spans.of_mem_exchanges` (a whole run),
and `arena_exclusive`.
-/
import BuddyTree.Source

namespace BuddyTree

/-! ## 1. Runs of a source -/

namespace Source

/-- A request in the course of a run: the supply before it, the answer, and the supply after it. -/
structure Exchange (σ : Type) where
  request : Request
  before : σ
  grant : Option Grant
  after : σ

/-- Requests answered one after the other, each with the supply before and after it. -/
def exchanges {σ : Type} (source : Source σ) (s : σ) : List Request → List (Exchange σ)
  | [] => []
  | r :: rest =>
    let (grant, s') := source.supply s r
    ⟨r, s, grant, s'⟩ :: source.exchanges s' rest

variable {σ : Type} (source : Source σ) (s : σ) (requests : List Request)

/-- Every request is answered, in order, -/
theorem map_request_exchanges : (source.exchanges s requests).map Exchange.request = requests := by
  induction requests generalizing s with
  | nil => rfl
  | cons r rest ih => rw [exchanges, List.map_cons, ih]

/-- out of what the answers before it have left, -/
theorem map_before_exchanges :
    (source.exchanges s requests).map Exchange.before =
      (s :: (source.exchanges s requests).map Exchange.after).dropLast := by
  induction requests generalizing s with
  | nil => rfl
  | cons r rest ih =>
    rw [exchanges, List.map_cons, List.map_cons, List.dropLast_cons_cons, ih]

/-- and as the source answers it. -/
theorem supplyAll_eq_map_exchanges :
    source.supplyAll s requests =
      (source.exchanges s requests).map fun e => (e.grant, e.after) := by
  induction requests generalizing s with
  | nil => rfl
  | cons r rest ih => rw [exchanges, List.map_cons, ← ih, supplyAll]

end Source

/-! ## 2. One request -/

/-- `m` is the least multiple of `align` from `n` on. -/
structure FirstMultiple (align n m : Nat) : Prop where
  dvd : align ∣ m
  le : n ≤ m
  least : ∀ k, align ∣ k → n ≤ k → m ≤ k

theorem firstMultiple_iff {align n m : Nat} (h : 0 < align) :
    FirstMultiple align n m ↔ m = roundUp n align := by
  constructor
  · intro hm
    apply Nat.le_antisymm
    · exact hm.least _ (dvd_roundUp n align) (le_roundUp h)
    · exact (roundUp_le_iff h hm.dvd).mpr hm.le
  · rintro rfl
    exact ⟨dvd_roundUp n align, le_roundUp h, fun k hk => (roundUp_le_iff h hk).mpr⟩

namespace Arena

variable {a b : Arena} {r : Request} {grant : Option Grant} {fill : UInt8}
  {start stop address : Nat}

/-- There is room for the request at `address`, the first place from `next` on that is aligned. -/
structure RoomAt (a : Arena) (r : Request) (address : Nat) : Prop where
  align_pos : 0 < r.align
  first : FirstMultiple r.align a.next address
  end_le : address + r.bytes ≤ a.stop

/-- **What an arena does** about a request: where there is room it grants that, and goes on behind
it; where there is none nothing changes. -/
inductive Serves (a : Arena) (r : Request) : Option Grant → Arena → Prop where
  | granted {g : Grant} (room : a.RoomAt r g.address) :
      Serves a r (some g) { a with next := g.address + r.bytes }
  | refused (full : ∀ address, ¬ a.RoomAt r address) : Serves a r none a

theorem take?_eq_some_iff_roomAt (hstop : a.stop < addressLimit) :
    a.take? r.bytes r.align = some (address, b) ↔
      a.RoomAt r address ∧ b = { a with next := address + r.bytes } := by
  rw [take?_eq_some_iff hstop]
  constructor
  · rintro ⟨hpos, hle, rfl, rfl⟩
    exact ⟨⟨hpos, (firstMultiple_iff hpos).mpr rfl, hle⟩, rfl⟩
  · rintro ⟨⟨hpos, hfirst, hle⟩, rfl⟩
    obtain rfl := (firstMultiple_iff hpos).mp hfirst
    exact ⟨hpos, hle, rfl, rfl⟩

/-- Where there is room, it is granted; -/
theorem supply_of_roomAt (hstop : a.stop < addressLimit) (h : a.RoomAt r address) :
    (Source.arena fill).supply a r =
      (some ⟨address, fun _ => fill⟩, { a with next := address + r.bytes }) := by
  simp only [Source.arena, (take?_eq_some_iff_roomAt hstop).mpr ⟨h, rfl⟩]

/-- where there is none, it is not. -/
theorem supply_of_not_roomAt (hstop : a.stop < addressLimit) (h : ∀ address, ¬ a.RoomAt r address) :
    (Source.arena fill).supply a r = (none, a) := by
  cases htake : a.take? r.bytes r.align with
  | none => simp only [Source.arena, htake]
  | some taken => exact absurd ((take?_eq_some_iff_roomAt hstop).mp htake).1 (h taken.1)

/-- **One request.** -/
theorem serves_supply (hstop : a.stop < addressLimit) (fill : UInt8) (r : Request) :
    a.Serves r ((Source.arena fill).supply a r).1 ((Source.arena fill).supply a r).2 := by
  by_cases h : ∃ address, a.RoomAt r address
  · obtain ⟨address, h⟩ := h
    rw [supply_of_roomAt hstop h]
    exact .granted h
  · have hfull : ∀ address, ¬ a.RoomAt r address := fun address hroom => h ⟨address, hroom⟩
    rw [supply_of_not_roomAt hstop hfull]
    exact .refused hfull

theorem Serves.granted_iff (h : a.Serves r grant b) :
    (∃ g, grant = some g) ↔ ∃ address, a.RoomAt r address := by
  cases h with
  | granted room => exact iff_of_true ⟨_, rfl⟩ ⟨_, room⟩
  | refused full => exact iff_of_false nofun fun ⟨address, room⟩ => full address room

theorem Serves.roomAt {g : Grant} (h : a.Serves r (some g) b) :
    a.RoomAt r g.address ∧ b.next = g.address + r.bytes := by
  cases h with
  | granted room => exact ⟨room, rfl⟩

theorem Serves.eq_of_refused (h : a.Serves r none b) : b = a := by
  cases h with
  | refused => rfl

/-! ## 3. A whole run -/

/-- The arena is the stretch from `start` to `stop`, taken up to some place in it. -/
structure Spans (start stop : Nat) (a : Arena) : Prop where
  start_eq : a.start = start
  stop_eq : a.stop = stop
  start_le : start ≤ a.next
  next_le : a.next ≤ stop

theorem spans_ofLength (start length : Nat) :
    Spans start (start + length) (.ofLength start length) :=
  ⟨rfl, rfl, Nat.le_refl _, Nat.le_add_right _ _⟩

theorem Spans.used_add_remaining (h : a.Spans start stop) :
    a.used + a.remaining = stop - start := by
  obtain ⟨rfl, rfl, hstart, hstop⟩ := h
  unfold used remaining
  omega

theorem Spans.used_le (h : a.Spans start stop) (h' : b.Spans start stop) (hle : a.next ≤ b.next) :
    a.used ≤ b.used := by
  unfold used
  rw [h.start_eq, h'.start_eq]
  exact Nat.sub_le_sub_right hle start

/-- A request leaves the stretch as it is, and what is taken stays taken. -/
theorem Spans.serves (h : a.Spans start stop) (hserves : a.Serves r grant b) :
    b.Spans start stop ∧ a.next ≤ b.next := by
  cases hserves with
  | granted room =>
    have hle := Nat.le_trans room.first.le (Nat.le_add_right _ r.bytes)
    exact ⟨⟨h.start_eq, h.stop_eq, Nat.le_trans h.start_le hle, h.stop_eq ▸ room.end_le⟩, hle⟩
  | refused => exact ⟨h, Nat.le_refl _⟩

/-- A place with room is in the stretch, and behind all that is taken. -/
theorem Spans.roomAt (h : a.Spans start stop) (hroom : a.RoomAt r address) :
    start ≤ address ∧ address + r.bytes ≤ stop ∧ r.align ∣ address :=
  ⟨Nat.le_trans h.start_le hroom.first.le, h.stop_eq ▸ hroom.end_le, hroom.first.dvd⟩

/-- **A whole run.**  Every request of it is made of the same stretch, and of a part that is not
taken yet. -/
theorem Spans.of_mem_exchanges (h : a.Spans start stop) (hstop : stop < addressLimit)
    {requests : List Request} :
    ∀ e ∈ (Source.arena fill).exchanges a requests,
      e.before.Spans start stop ∧ e.before.Serves e.request e.grant e.after ∧
        a.next ≤ e.before.next := by
  induction requests generalizing a with
  | nil => nofun
  | cons r rest ih =>
    have hserves := serves_supply (h.stop_eq ▸ hstop) fill r
    obtain ⟨h', hle⟩ := h.serves hserves
    intro e he
    rcases List.mem_cons.mp he with rfl | he
    · exact ⟨h, hserves, Nat.le_refl _⟩
    · obtain ⟨hspans, hanswer, hnext⟩ := ih h' e he
      exact ⟨hspans, hanswer, Nat.le_trans hle hnext⟩

/-- Later requests begin where earlier ones have ended, or behind that. -/
theorem Spans.pairwise_exchanges (h : a.Spans start stop) (hstop : stop < addressLimit)
    (requests : List Request) :
    ((Source.arena fill).exchanges a requests).Pairwise fun e e' =>
      e.after.next ≤ e'.before.next := by
  induction requests generalizing a with
  | nil => exact .nil
  | cons r rest ih =>
    obtain ⟨h', -⟩ := h.serves (serves_supply (h.stop_eq ▸ hstop) fill r)
    exact .cons (fun e he => (h'.of_mem_exchanges hstop e he).2.2) (ih h')

end Arena

/-! ## 4. Alone, and for good -/

/-- **Memory from an arena** is had by one alone, for good.  In every run from the untouched arena a
request is granted exactly if there is room at the first aligned place, and is granted that place:
inside the arena, at a multiple of its alignment, and at or after the end of everything granted
before.  One that is refused changes neither what is used nor what remains.  Throughout, the two
make up the arena, and what is used does not go down. -/
theorem arena_exclusive {start length : Nat} (hstart : 0 < start)
    (hstop : start + length < addressLimit) (fill : UInt8) (requests : List Request) :
    let a := Arena.ofLength start length
    let run := (Source.arena fill).exchanges a requests
    let arenas := a :: run.map Source.Exchange.after
    (Source.arena fill).supplyAll a requests = run.map (fun e => (e.grant, e.after)) ∧
    run.map Source.Exchange.request = requests ∧
    run.map Source.Exchange.before = arenas.dropLast ∧
    (∀ e ∈ run,
      ((∃ g, e.grant = some g) ↔ ∃ address, e.before.RoomAt e.request address) ∧
      (∀ g, e.grant = some g → e.before.RoomAt e.request g.address ∧ g.address ≠ 0 ∧
        start ≤ g.address ∧ g.address + e.request.bytes ≤ start + length ∧
        e.request.align ∣ g.address) ∧
      (e.grant = none →
        e.after.used = e.before.used ∧ e.after.remaining = e.before.remaining)) ∧
    run.Pairwise (fun e e' => ∀ g g', e.grant = some g → e'.grant = some g' →
      g.address + e.request.bytes ≤ g'.address) ∧
    (∀ b ∈ arenas, b.used + b.remaining = length) ∧
    arenas.Pairwise fun b b' => b.used ≤ b'.used := by
  intro a run arenas
  have ha : a.Spans start (start + length) := Arena.spans_ofLength start length
  have hrun : ∀ e ∈ run, e.before.Spans start (start + length) ∧
      e.before.Serves e.request e.grant e.after ∧ a.next ≤ e.before.next :=
    ha.of_mem_exchanges hstop
  have hafter : ∀ e ∈ run, e.after.Spans start (start + length) ∧ e.before.next ≤ e.after.next :=
    fun e he => (hrun e he).1.serves (hrun e he).2.1
  have hnext : run.Pairwise fun e e' => e.after.next ≤ e'.before.next :=
    ha.pairwise_exchanges hstop requests
  have hspans : ∀ b ∈ arenas, b.Spans start (start + length) := by
    intro b hb
    rcases List.mem_cons.mp hb with rfl | hb
    · exact ha
    · obtain ⟨e, he, rfl⟩ := List.mem_map.mp hb
      exact (hafter e he).1
  refine ⟨Source.supplyAll_eq_map_exchanges _ _ _, Source.map_request_exchanges _ _ _,
    Source.map_before_exchanges _ _ _, fun e he => ?_, ?_, fun b hb => ?_, ?_⟩
  · obtain ⟨hbefore, hserves, -⟩ := hrun e he
    refine ⟨hserves.granted_iff, fun g hg => ?_, fun hnone => ?_⟩
    · have hroom := (hg ▸ hserves).roomAt.1
      obtain ⟨hle, hend, hdvd⟩ := hbefore.roomAt hroom
      exact ⟨hroom, by omega, hle, hend, hdvd⟩
    · rw [hnone] at hserves
      rw [hserves.eq_of_refused]
      exact ⟨rfl, rfl⟩
  · refine hnext.imp_of_mem fun {e e'} he he' hle g g' hg hg' => ?_
    have hend := (hg ▸ (hrun e he).2.1).roomAt.2
    have hbegin := (hg' ▸ (hrun e' he').2.1).roomAt.1.first.le
    omega
  · have := (hspans b hb).used_add_remaining
    omega
  · refine .cons (fun b hb => ?_) (List.pairwise_map.mpr ?_)
    · obtain ⟨e, he, rfl⟩ := List.mem_map.mp hb
      exact ha.used_le (hafter e he).1 (Nat.le_trans (hrun e he).2.2 (hafter e he).2)
    · refine hnext.imp_of_mem fun {e e'} he he' hle => ?_
      exact (hafter e he).1.used_le (hafter e' he').1 (Nat.le_trans hle (hafter e' he').2)

/-- A hundred bytes at the very end of the address space.  A request whose first aligned place would
be past the last address is refused, and so is one that would end there; zero bytes can be had, and
alignment zero cannot. -/
theorem arena_exclusive_of_last :
    let start := 2 ^ (64 : Nat) - 101
    let requests : List Request :=
      [⟨3, 1⟩, ⟨2 ^ (64 : Nat) - 1, 1⟩, ⟨8, 2 ^ (63 : Nat)⟩, ⟨0, 16⟩, ⟨8, 0⟩, ⟨8, 16⟩]
    let run := (Source.arena 0xff).exchanges (.ofLength start 100) requests
    0 < start ∧ start + 100 < addressLimit ∧
      run.map (fun e => e.grant.map (fun g => g.address - start)) =
        [some 0, none, none, some 5, none, some 5] ∧
      run.Pairwise (fun e e' => ∀ g g', e.grant = some g → e'.grant = some g' →
        g.address + e.request.bytes ≤ g'.address) ∧
      ∀ e ∈ run, e.grant = none → e.after.remaining = e.before.remaining := by
  intro start requests run
  have hstart : 0 < start := by decide
  have hstop : start + 100 < addressLimit := by decide
  obtain ⟨-, -, -, hanswers, halone, -⟩ := arena_exclusive hstart hstop 0xff requests
  exact ⟨hstart, hstop, by decide +kernel, halone, fun e he hnone => ((hanswers e he).2.2 hnone).2⟩

end BuddyTree
