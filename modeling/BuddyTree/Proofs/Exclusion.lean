/-
# No two callers share memory

Calls that come in between each other, wherever an operation lets them in, never hand out a byte
twice.  A run is a list of calls, each with the calls that come in between; what it leaves behind
is sound after every one of its calls, those in between included, and what soundness means for the
callers is `Region.Exclusive`: recorded blocks are apart, and every ancestor of one counts it.

To speak of the metadata after a call that came in between, such calls are *filmed*.  The film
changes nothing about the run (`interrupted_eq_filmed`).

The main fact is `mutual_exclusion`.
-/
import BuddyTree.Proofs.Calls
import BuddyTree.Proofs.Listening

namespace BuddyTree

/-! ## 1. What callers rely on -/

/-- The blocks in the index are where they should be, busy, and apart from each other, and every
ancestor of one is occupied on its side. -/
structure Region.Exclusive (r : Region) (m : Metadata r.depth) : Prop where
  /-- An entry is the number of a busy node that starts at its granule and is not too high. -/
  entry : ∀ leaf, m.entry leaf ≠ 0 → ∃ n : Node r.depth, n.id = (m.entry leaf).toNat ∧
    n.firstLeaf = leaf ∧ r.geometry.baseLevel ≤ n.level ∧ m.tree.get n = .busy
  /-- Above the node of an entry, its own side is occupied and not about to be given up, and no
  node is a block. -/
  ancestors : ∀ (leaf : Fin (2 ^ r.depth)) (n a : Node r.depth) s, n.id = (m.entry leaf).toNat →
    n.InHalf a s → r.geometry.baseLevel ≤ a.level →
    (m.tree.get a).isOccupied s = true ∧ (m.tree.get a).isCoalescing s = false ∧
      (m.tree.get a).has .block = false
  /-- Two blocks have no address in common. -/
  apart : ∀ (leaf leaf' : Fin (2 ^ r.depth)) (a b : Node r.depth), leaf ≠ leaf' →
    a.id = (m.entry leaf).toNat → b.id = (m.entry leaf').toNat →
    r.addressOf a + 2 ^ a.order * r.geometry.minSize ≤ r.addressOf b ∨
      r.addressOf b + 2 ^ b.order * r.geometry.minSize ≤ r.addressOf a

/-- An entry that is the number of a node is that node's. -/
theorem Metadata.Sound.records_of_id {d top : Nat} {m : Metadata d} (h : m.Sound top)
    {leaf : Fin (2 ^ d)} {n : Node d} (hn : n.id = (m.entry leaf).toNat) :
    m.Records n ∧ n.firstLeaf = leaf := by
  refine h.records_of_entry ?_
  rw [← hn, Node.ofId?, dif_pos ⟨n.pos, n.lt⟩]

/-- Blocks that are apart have no address in common. -/
theorem Region.addresses_apart (r : Region) {a b : Node r.depth} (h : a.block.Apart b.block) :
    r.addressOf a + 2 ^ a.order * r.geometry.minSize ≤ r.addressOf b ∨
      r.addressOf b + 2 ^ b.order * r.geometry.minSize ≤ r.addressOf a := by
  have key : ∀ a b : Node r.depth, a.block.stop ≤ b.block.first →
      r.addressOf a + 2 ^ a.order * r.geometry.minSize ≤ r.addressOf b := by
    intro a b hab
    have hmul := Nat.mul_le_mul_right r.geometry.minSize
      (show a.firstLeaf.val + 2 ^ a.order ≤ b.firstLeaf.val from hab)
    rw [Nat.add_mul] at hmul
    unfold Region.addressOf
    omega
  exact h.imp (key a b) (key b a)

/-- **Sound metadata is exclusive.** -/
theorem Metadata.Sound.exclusive {r : Region} {m : Metadata r.depth}
    (h : m.Sound r.geometry.baseLevel) : r.Exclusive m where
  entry := by
    intro leaf hleaf
    obtain ⟨n, hn, hfirst⟩ := h.entry leaf fun hz => hleaf (UInt32.toNat_inj.mp (by simpa using hz))
    exact ⟨n, by rw [← hfirst, hn], hfirst, h.level hn, h.fits.busy hn⟩
  ancestors := by
    intro leaf n a s hn hin hl
    obtain ⟨hrec, -⟩ := h.records_of_id hn
    have hblock : ¬ m.Records a := fun ha => h.apart ha hrec hin
    obtain ⟨hocc, hcoal⟩ := (h.fits.below_iff hblock hl s).mp ⟨n, hrec, hin⟩
    exact ⟨hocc, hcoal, h.fits.vacant hblock⟩
  apart := by
    intro leaf leaf' a b hne ha hb
    obtain ⟨hra, hla⟩ := h.records_of_id ha
    obtain ⟨hrb, hlb⟩ := h.records_of_id hb
    refine r.addresses_apart (Node.block_apart_iff.mpr ⟨fun hab => ?_, fun hba => ?_⟩)
    · exact hne (by rw [← hla, ← hlb, h.within_eq hrb hra hab])
    · exact hne (by rw [← hla, ← hlb, h.within_eq hra hrb hba])

/-! ## 2. Runs -/

/-- What is seen of a call that comes in between: its reply, and the metadata before and after. -/
structure Shot (d : Nat) where
  reply : Reply
  before : Metadata d
  after : Metadata d

namespace Region

/-- Make a call and keep what is seen of it. -/
def film (r : Region) : Watch.Perform r.depth Call (Shot r.depth) := fun c w =>
  let (reply, w') := c.perform r (recorder _) w
  (⟨reply, w.store, w'.store⟩, w')

/-- Make one call, and film the others that come in between. -/
def filmed (r : Region) (c : Call) (hooks : List (Hook Call)) (m : Metadata r.depth) :
    Reply × Watch Call (Shot r.depth) × Metadata r.depth :=
  r.watched r.film hooks (c.perform r) m

/-- The metadata after calls that were made one after the other, each with others in between. -/
def after (r : Region) : List (Call × List (Hook Call)) → Metadata r.depth → Metadata r.depth
  | [], m => m
  | (c, hooks) :: rest, m => r.after rest (r.interrupted c hooks m).2.2

/-- **The film changes nothing.** -/
theorem interrupted_eq_filmed (r : Region) (c : Call) (hooks : List (Hook Call))
    (m : Metadata r.depth) :
    r.interrupted c hooks m =
      ((r.filmed c hooks m).1, (r.filmed c hooks m).2.1.relabel Shot.reply,
        (r.filmed c hooks m).2.2) := by
  have h : Watch.Perform.Relabels Shot.reply r.film
      (fun other w => other.perform r (recorder _) w) := fun _ _ => rfl
  exact watched_relabel h c hooks m

end Region

section Runs

variable {r : Region} {m : Metadata r.depth}

/-- What a shot shows of a call: it is the call that nobody listens to, and it goes from sound
metadata to sound metadata. -/
def Shot.Shows (r : Region) (c : Call) (shot : Shot r.depth) : Prop :=
  r.call c shot.before = (shot.reply, shot.after) ∧
    shot.before.Sound r.geometry.baseLevel ∧ shot.after.Sound r.geometry.baseLevel

theorem steady_film (hr : r.Managed) (c : Call) (w : World r.depth (Array Record))
    (h : Steady r.geometry.baseLevel Clean w) :
    Steady r.geometry.baseLevel Clean (r.film c w).2 ∧ Shot.Shows r c (r.film c w).1 := by
  have hperform := steady_perform hr (keeps_recorder _ _) c h
  exact ⟨hperform, perform_recorder r c w, h.1, hperform.1⟩

/-- What the others may do while a call is made keeps soundness. -/
theorem keeps_film (hr : r.Managed) :
    (watching r.depth r.film).Keeps (Steady r.geometry.baseLevel (Watch.Tidy (Shot.Shows r))) :=
  keeps_watching (steady_film hr)

theorem steady_start (h : m.Sound r.geometry.baseLevel) (hooks : List (Hook Call)) :
    Steady r.geometry.baseLevel (Watch.Tidy (Shot.Shows r)) ⟨m, .start hooks⟩ :=
  ⟨h, clean_empty, fun p hp => absurd hp (Array.not_mem_empty p)⟩

/-- **One step of a run.** -/
theorem steady_filmed (hr : r.Managed) (h : m.Sound r.geometry.baseLevel) (c : Call)
    (hooks : List (Hook Call)) :
    (r.filmed c hooks m).2.2.Sound r.geometry.baseLevel ∧
      Watch.Tidy (Shot.Shows r) (r.filmed c hooks m).2.1 :=
  steady_perform hr (keeps_film hr) c (steady_start h hooks)

/-- **A whole run.** -/
theorem sound_after (hr : r.Managed) (steps : List (Call × List (Hook Call)))
    (h : m.Sound r.geometry.baseLevel) : (r.after steps m).Sound r.geometry.baseLevel := by
  induction steps generalizing m with
  | nil => exact h
  | cons step rest ih =>
    obtain ⟨c, hooks⟩ := step
    refine ih ?_
    rw [Region.interrupted_eq_filmed]
    exact (steady_filmed hr h c hooks).1

/-- **An allocation commits to an empty entry,** whoever comes in between while it searches. -/
theorem entry_eq_zero_of_search {ε : Type} {obs : Observer r.depth ε} {E : ε → Prop}
    (hr : r.Managed) (hobs : obs.Keeps (Steady r.geometry.baseLevel E)) {w w' : World r.depth ε}
    (h : Steady r.geometry.baseLevel E w) {order : Nat} (ho : order ≤ r.geometry.maxOrder)
    {n : Node r.depth} (hn : search obs r.geometry.baseLevel order w = (some n, w')) :
    w'.store.entry n.firstLeaf = 0 := by
  have hsearch := steady_search hobs (hr.baseLevel_le_sub ho) h
  rw [hn] at hsearch
  exact hsearch.1.entry_eq_zero

end Runs

/-! ## 3. Mutual exclusion -/

/-- What a call is promised that is made at `m` while others come in between. -/
structure Region.Undisturbed (r : Region) (m : Metadata r.depth) (c : Call)
    (hooks : List (Hook Call)) : Prop where
  /-- Every call leaves exclusive blocks behind, -/
  after : r.Exclusive (r.interrupted c hooks m).2.2
  /-- also each of those in between, which are calls that nothing interferes with. -/
  between : ∀ p ∈ (r.filmed c hooks m).2.1.done,
    r.call p.1 p.2.before = (p.2.reply, p.2.after) ∧ r.Exclusive p.2.after
  /-- An allocation that found a node finds its index entry empty, -/
  commit : ∀ order ≤ r.geometry.maxOrder, ∀ n w,
    search (watching _ r.film) r.geometry.baseLevel order ⟨m, .start hooks⟩ = (some n, w) →
    w.store.entry n.firstLeaf = 0
  /-- also each of those in between. -/
  commitBetween : ∀ p ∈ (r.filmed c hooks m).2.1.done, ∀ order ≤ r.geometry.maxOrder, ∀ n w,
    search (silent _) r.geometry.baseLevel order ⟨p.2.before, ()⟩ = (some n, w) →
    w.store.entry n.firstLeaf = 0
  /-- No release finds its node free already. -/
  clean : ∀ record ∈ (r.interrupted c hooks m).2.1.log, ¬ record.IsDoubleFree

/-- **Mutual exclusion.**  Whatever was called before and whoever came in between, every call is
undisturbed: no two blocks share an address, and none is given up twice. -/
theorem mutual_exclusion {base size : Nat} {config : Config} {r : Region}
    (h : Region.of base size config = .ok r) (steps : List (Call × List (Hook Call))) (c : Call)
    (hooks : List (Hook Call)) : r.Undisturbed (r.after steps (.blank _)) c hooks := by
  have hr := Region.managed_of h
  have hs : (r.after steps (.blank _)).Sound r.geometry.baseLevel :=
    sound_after hr steps (Metadata.sound_blank _ _)
  obtain ⟨hafter, hclean, hshots⟩ := steady_filmed hr hs c hooks
  refine
    { after := ?_
      between := fun p hp => ⟨(hshots p hp).1, (hshots p hp).2.2.exclusive⟩
      commit := fun order ho n w hn =>
        entry_eq_zero_of_search hr (keeps_film hr) (steady_start hs hooks) ho hn
      commitBetween := fun p hp order ho n w hn => ?_
      clean := ?_ }
  · rw [Region.interrupted_eq_filmed]
    exact hafter.exclusive
  · have hkeeps : (silent r.depth).Keeps (Steady r.geometry.baseLevel fun _ => True) :=
      fun _ _ _ h => h
    exact entry_eq_zero_of_search hr hkeeps (w := ⟨p.2.before, ()⟩) ⟨(hshots p hp).2.1, trivial⟩
      ho hn
  · rw [Region.interrupted_eq_filmed]
    exact hclean

/-- A claim that is being undone below a block, while that block is given back and a smaller one is
taken in its place and given back too. -/
theorem mutual_exclusion_of_rollback :
    let r : Region := ⟨4096, ⟨1, 5, 0⟩⟩
    Region.of 4096 32 ⟨1, 5⟩ = .ok r ∧
      r.Undisturbed (r.after [(.alloc 16, [])] (.blank _)) (.alloc 1)
        [⟨.coalesced, 1, [.free 4096, .alloc 4, .free 4100]⟩] := by
  intro r
  have h : Region.of 4096 32 ⟨1, 5⟩ = .ok r := rfl
  exact ⟨h, mutual_exclusion h _ _ _⟩

end BuddyTree
