/-
# What each call does when nobody interferes

A call fails for a reason of its own, which does not depend on the metadata; or it searches one
level and enters what it finds; or it releases the block that starts at the address it was given.
Here the outcome is written down for each of these: the reply, and the metadata as an explicit
function of the metadata before.

Nothing has to be at rest for that.  An allocation is explicit where no recorded block covers an
announcement, and a release wherever the node that the index leads to is not free.

The main facts: `take_cases` and `granted_cases` (calls that take a block), `free_cases` and
`free_recorded` (calls that give one back; `free_perform_unrecorded` and `free_perform_recorded`
whoever listens), `Region.call_cases` (there are no others), and `atRest_call` (every call goes from
rest to rest).
-/
import BuddyTree.Proofs.Rest

namespace BuddyTree

/-! ## 1. Taking a block -/

namespace Region

variable {ε : Type}

/-- What an allocation makes of what its search has found. -/
def answer (r : Region) (obs : Observer r.depth ε) (size order : Nat) :
    Option (Node r.depth) × World r.depth ε → Reply × World r.depth ε
  | (none, w) => (.allocated (.error (.outOfMemory size)), w)
  | (some n, w) =>
    (.allocated (.ok (r.addressOf n)),
      obs.react (.claimed n.id order n.firstLeaf) (w.mapStore (.enter n)))

theorem alloc_eq_answer (r : Region) (obs : Observer r.depth ε) {size order : Nat}
    (ho : r.geometry.orderFor? size = some order) (w : World r.depth ε) :
    (Call.alloc size).perform r obs w =
      r.answer obs size order (search obs r.geometry.baseLevel order w) := by
  unfold Call.perform Region.alloc
  simp only [ho]
  rcases search obs r.geometry.baseLevel order w with ⟨_ | n, w'⟩ <;> rfl

end Region

/-- How many bytes a block for the call has to hold. -/
def Call.wanted : Call → Nat
  | alloc size => size
  | allocLayout layout => max layout.size layout.align
  | free _ => 0

section Calls

variable {r : Region}

/-- **A call that takes a block** fails for a reason of its own, whoever listens, or is a search and
what is made of it. -/
theorem take_cases {c : Call} (hc : c.Takes) :
    (∃ e, (∀ bytes, e ≠ .outOfMemory bytes) ∧
      ∀ {ε : Type} (obs : Observer r.depth ε) w, c.perform r obs w = (.allocated (.error e), w)) ∨
    ∃ order, r.geometry.orderFor? c.wanted = some order ∧
      ∀ {ε : Type} (obs : Observer r.depth ε) w, c.perform r obs w =
        r.answer obs c.wanted order (search obs r.geometry.baseLevel order w) := by
  have halloc : ∀ size,
      (∃ e, (∀ bytes, e ≠ .outOfMemory bytes) ∧ ∀ {ε : Type} (obs : Observer r.depth ε) w,
        (Call.alloc size).perform r obs w = (.allocated (.error e), w)) ∨
      ∃ order, r.geometry.orderFor? size = some order ∧
        ∀ {ε : Type} (obs : Observer r.depth ε) w, (Call.alloc size).perform r obs w =
          r.answer obs size order (search obs r.geometry.baseLevel order w) := by
    intro size
    cases ho : r.geometry.orderFor? size with
    | none =>
      refine .inl ⟨.tooLarge size r.geometry.maxSize, nofun, fun obs w => ?_⟩
      simp only [Call.perform, Region.alloc, ho]
    | some order => exact .inr ⟨order, rfl, fun obs w => r.alloc_eq_answer obs ho w⟩
  cases c with
  | free _ => exact hc.elim
  | alloc size => exact halloc size
  | allocLayout layout =>
    by_cases hal : layout.align > r.geometry.minSize ∧ r.base % layout.align ≠ 0
    · refine .inl ⟨.alignment layout.align, nofun, fun obs w => ?_⟩
      simp only [Call.perform, Region.allocLayout, if_pos hal]
    · have hsame : ∀ {ε : Type} (obs : Observer r.depth ε) w,
          (Call.allocLayout layout).perform r obs w =
            (Call.alloc (max layout.size layout.align)).perform r obs w := by
        intro ε obs w
        simp only [Call.perform, Region.allocLayout, if_neg hal]
      simp only [hsame]
      exact halloc _

/-- The reply and the metadata when a search has found a node or none. -/
def Region.granted (r : Region) (size : Nat) (m : Metadata r.depth) :
    Option (Node r.depth) → Reply × Metadata r.depth
  | none => (.allocated (.error (.outOfMemory size)), m)
  | some n => (.allocated (.ok (r.addressOf n)), (m.withMarks n r.geometry.baseLevel).enter n)

/-- **Taking a block where no announcement is covered.**  The call fails for a reason of its own,
or takes the first node of one level that can be had. -/
theorem granted_cases (hr : r.Managed) {c : Call} (hc : c.Takes) :
    (∃ e, ∀ m, r.call c m = (.allocated (.error e), m)) ∨
    ∃ l, r.geometry.baseLevel ≤ l ∧
      ∀ m : Metadata r.depth, m.Sound r.geometry.baseLevel → m.CoversNone →
        ∃ found, FirstIn m.Available (2 ^ l) (2 ^ (l + 1)) found ∧
          r.call c m = r.granted c.wanted m found := by
  rcases take_cases (r := r) hc with ⟨e, -, h⟩ | ⟨order, ho, h⟩
  · exact .inl ⟨e, fun m => by simp only [Region.call, Region.alone, h]⟩
  · have hlevel := hr.baseLevel_le_sub (Geometry.orderFor?_le hr.minSize_pos ho)
    refine .inr ⟨r.depth - order, hlevel, fun m hm hcovers => ?_⟩
    obtain ⟨found, hfirst, hsearch⟩ := hm.search hcovers hlevel
    refine ⟨found, hfirst, ?_⟩
    simp only [Region.call, Region.alone, h, hsearch]
    cases found <;> rfl

/-- The node found is on the level that was searched. -/
theorem FirstIn.level_eq {d l : Nat} {V : Node d → Prop} {n : Node d}
    (h : FirstIn V (2 ^ l) (2 ^ (l + 1)) (some n)) : n.level = l :=
  (NodeId.level_eq_iff n.pos).mpr ⟨h.1, h.2.1⟩

/-! ## 2. Giving one back -/

namespace Metadata

variable {d : Nat}

/-- Take a node out of the index, release it alone, and count it. -/
def giveBack (n : Node d) (top : Nat) (m : Metadata d) : Metadata d :=
  ((m.withdraw n.firstLeaf).mapTree (·.retire n top)).discharge n

variable {m : Metadata d} {top : Nat} {n : Node d}

@[simp] theorem tree_giveBack : (m.giveBack n top).tree = m.tree.retire n top := rfl

theorem records_giveBack_iff (hn : m.Records n) {b : Node d} :
    (m.giveBack n top).Records b ↔ m.Records b ∧ b ≠ n :=
  records_withdraw_iff hn

/-- Giving a block back depends on the books only, as far as the books go. -/
theorem SameBooks.giveBack {m' : Metadata d} (h : SameBooks m m') (n : Node d) (top : Nat) :
    SameBooks (m.giveBack n top) (m'.giveBack n top) :=
  ((h.withdraw n.firstLeaf).mapTree _ _).discharge n

theorem Sound.isFree_of_records (h : m.Sound top) (hn : m.Records n) :
    (m.tree.get n).isFree = false := by
  rw [h.fits.busy hn]
  exact Status.isFree_busy

/-- A release of a recorded block, before it is counted, is its retirement. -/
theorem Sound.release_withdraw (h : m.Sound top) (hn : m.Records n) :
    (release (silent d) n top ⟨m.withdraw n.firstLeaf, ()⟩).2.store =
      (m.withdraw n.firstLeaf).mapTree (·.retire n top) :=
  (release_alone letsPass_silent (h.level hn) (w := ⟨m.withdraw n.firstLeaf, ()⟩)
    (h.isFree_of_records hn)).2

/-- **Giving a block back** keeps soundness, -/
theorem Sound.giveBack (h : m.Sound top) (hn : m.Records n) : (m.giveBack n top).Sound top := by
  have hsound := (steady_release (E := fun _ => True) (w := ⟨m.withdraw n.firstLeaf, ()⟩)
    (keeps_silent _) (h.withdraw hn) trivial).2.1
  rw [h.release_withdraw hn] at hsound
  exact hsound.discharge n

theorem AtRest.retire (h : m.AtRest top) (hn : m.Records n) :
    ((m.withdraw n.firstLeaf).mapTree (·.retire n top)).AtRest top := by
  rw [← h.toSound.release_withdraw hn]
  exact (AtRest.release (h.toSound.withdraw hn) h.quiet).2

/-- and goes from rest to rest. -/
theorem AtRest.giveBack (h : m.AtRest top) (hn : m.Records n) : (m.giveBack n top).AtRest top :=
  ⟨h.toSound.giveBack hn, (h.retire hn).quiet⟩

end Metadata

/-- The leaf at a node's address is its first one, and the address is in range. -/
theorem Region.Managed.leafAt_addressOf (hr : r.Managed) (n : Node r.depth) :
    ∃ h : r.addressOf n - r.base < r.geometry.totalMemory, r.base ≤ r.addressOf n ∧
      (r.addressOf n - r.base) % r.geometry.minSize = 0 ∧
      r.leafAt (r.addressOf n) h = n.firstLeaf := by
  have hsub : r.addressOf n - r.base = n.firstLeaf.val * r.geometry.minSize :=
    Nat.add_sub_cancel_left _ _
  have hlt : n.firstLeaf.val * r.geometry.minSize < r.geometry.totalMemory :=
    Nat.mul_lt_mul_of_pos_right n.firstLeaf.isLt hr.minSize_pos
  refine ⟨hsub ▸ hlt, Nat.le_add_right _ _, ?_, Fin.ext ?_⟩
  · rw [hsub, Nat.mul_mod_left]
  · simp only [Region.leafAt, hsub]
    exact Nat.mul_div_cancel _ hr.minSize_pos

/-- Nodes at the same address start at the same granule. -/
theorem Region.Managed.firstLeaf_eq_of_addressOf (hr : r.Managed) {a b : Node r.depth}
    (h : r.addressOf a = r.addressOf b) : a.firstLeaf = b.firstLeaf :=
  Fin.ext (Nat.eq_of_mul_eq_mul_right hr.minSize_pos (Nat.add_left_cancel h))

theorem Region.Managed.addressOf_ne_zero (hr : r.Managed) (n : Node r.depth) :
    r.addressOf n ≠ 0 :=
  Nat.ne_of_gt (Nat.add_pos_left hr.base_pos _)

/-- Every block lies within the managed memory. -/
theorem Region.addressOf_add_le (r : Region) (n : Node r.depth) :
    r.addressOf n + 2 ^ n.order * r.geometry.minSize ≤ r.base + r.geometry.totalMemory := by
  have hstop : (n.firstLeaf.val + 2 ^ n.order) * r.geometry.minSize ≤ r.geometry.totalMemory :=
    Nat.mul_le_mul_right _ n.block_stop_le
  rw [Nat.add_mul] at hstop
  unfold Region.addressOf
  omega

/-- **Giving back what is not there.**  At an address at which no recorded block starts the reply
does not depend on the metadata, which is left as it was; only the address 0 is no error.  At most
one record is reported, of an event that nobody waits for. -/
theorem free_perform_unrecorded (r : Region) (address : Nat) :
    ∃ (reply : Except FreeError Unit) (report : Option Record), (reply = .ok () → address = 0) ∧
      (∀ record ∈ report, ¬ record.IsDoubleFree ∧ record.event? = none) ∧
      ∀ {ε : Type} (obs : Observer r.depth ε) (w : World r.depth ε) (top : Nat),
        w.store.Listed top → (∀ n, w.store.Records n → r.addressOf n ≠ address) →
        (Call.free address).perform r obs w = (.freed reply, report.elim w (obs.react · w)) := by
  by_cases hzero : address = 0
  · refine ⟨.ok (), none, fun _ => hzero, nofun, fun obs w top _ _ => ?_⟩
    simp only [Call.perform, Region.free, if_pos hzero]
    rfl
  · by_cases hin : r.base ≤ address ∧ address - r.base < r.geometry.totalMemory
    · by_cases hal : (address - r.base) % r.geometry.minSize = 0
      · refine ⟨.error (.notAllocated address), some (.unknownFree address), by simp, ?_,
          fun obs w top hm hnone => ?_⟩
        · rintro _ ⟨⟩
          exact ⟨not_false, rfl⟩
        have hempty : Node.ofId? r.depth (w.store.entry (r.leafAt address hin.2)).toNat = none := by
          refine hm.ofId?_eq_none fun n hn hleaf => ?_
          refine hnone n hn ?_
          rw [Region.addressOf, hleaf, Region.leafAt,
            Nat.div_mul_cancel (Nat.dvd_of_mod_eq_zero hal)]
          omega
        simp only [Call.perform, Region.free, if_neg hzero, dif_pos hin, hal, ne_eq,
          not_true_eq_false, if_false]
        split
        · rfl
        · next n hn => cases hempty.symm.trans hn
      · refine ⟨.error (.misaligned address), some (.unalignedFree address), by simp, ?_,
          fun obs w top _ _ => ?_⟩
        · rintro _ ⟨⟩
          exact ⟨not_false, rfl⟩
        simp only [Call.perform, Region.free, if_neg hzero, dif_pos hin, ne_eq, hal,
          not_false_eq_true, if_true]
        rfl
    · refine ⟨.error (.outOfRange address), none, by simp, nofun, fun obs w top _ _ => ?_⟩
      simp only [Call.perform, Region.free, if_neg hzero, dif_neg hin]
      rfl

/-- If nobody listens, there is only the reply. -/
theorem free_cases (r : Region) (address : Nat) :
    ∃ reply : Except FreeError Unit, (reply = .ok () → address = 0) ∧
      ∀ (m : Metadata r.depth) (top : Nat), m.Listed top →
        (∀ n, m.Records n → r.addressOf n ≠ address) →
        r.call (.free address) m = (.freed reply, m) := by
  obtain ⟨reply, report, hzero, -, hperform⟩ := free_perform_unrecorded r address
  refine ⟨reply, hzero, fun m top hm hnone => ?_⟩
  simp only [Region.call, Region.alone, hperform (silent _) ⟨m, ()⟩ top hm hnone]
  cases report <;> rfl

/-- **Giving back what is there** is the release of the node, whoever listens. -/
theorem free_perform (hr : r.Managed) {ε : Type} (obs : Observer r.depth ε) {w : World r.depth ε}
    {n : Node r.depth} (hn : w.store.Records n) :
    (Call.free (r.addressOf n)).perform r obs w =
      match release obs n r.geometry.baseLevel (w.mapStore (.withdraw n.firstLeaf)) with
      | (false, w') => (.freed (.error (.notAllocated (r.addressOf n))),
          obs.react (.alreadyFree n.id (r.addressOf n)) w')
      | (true, w') => (.freed (.ok ()), w'.mapStore (.discharge n)) := by
  obtain ⟨hlt, hle, hal, hleaf⟩ := hr.leafAt_addressOf n
  have hid := hn.ofId?_eq
  simp only [Call.perform, Region.free, if_neg (hr.addressOf_ne_zero n),
    dif_pos (show r.base ≤ r.addressOf n ∧ r.addressOf n - r.base < r.geometry.totalMemory from
      ⟨hle, hlt⟩), hal, ne_eq, not_true_eq_false, if_false, hleaf]
  split
  · next hnone => cases hid.symm.trans hnone
  · next n' hn' =>
    obtain rfl : n = n' := Option.some.inj (hid.symm.trans hn')
    rcases release obs n r.geometry.baseLevel (w.mapStore (.withdraw n.firstLeaf)) with ⟨_ | _, w'⟩
    · rfl
    · rfl

/-- On sound metadata that release succeeds: the block is taken out of the index, announced and
cleared, merged, and counted. -/
theorem free_perform_recorded (hr : r.Managed) {ε : Type} (obs : Observer r.depth ε)
    {w : World r.depth ε} {n : Node r.depth} (h : w.store.Sound r.geometry.baseLevel)
    (hn : w.store.Records n) :
    (Call.free (r.addressOf n)).perform r obs w = (.freed (.ok ()),
      (merge obs (n.climb (n.level - r.geometry.baseLevel))
        ((w.mapStore (.withdraw n.firstLeaf)).mapStore
          (.giveUp n r.geometry.baseLevel))).mapStore (.discharge n)) := by
  have hheld : (w.mapStore (.withdraw n.firstLeaf)).store.Holding r.geometry.baseLevel n
      r.geometry.baseLevel := h.withdraw hn
  rw [free_perform hr obs hn, hheld.release_eq obs]

/-- **Giving back a recorded block** succeeds if its node is not free. -/
theorem free_recorded (hr : r.Managed) {m : Metadata r.depth} {n : Node r.depth}
    (hn : m.Records n) (hl : r.geometry.baseLevel ≤ n.level)
    (hfree : (m.tree.get n).isFree = false) :
    r.call (.free (r.addressOf n)) m = (.freed (.ok ()), m.giveBack n r.geometry.baseLevel) := by
  obtain ⟨htrue, hstore⟩ :=
    release_alone letsPass_silent hl (w := ⟨m.withdraw n.firstLeaf, ()⟩) hfree
  have hmap : (⟨m, ()⟩ : World r.depth Unit).mapStore (.withdraw n.firstLeaf) =
      ⟨m.withdraw n.firstLeaf, ()⟩ := rfl
  simp only [Region.call, Region.alone, free_perform hr (silent _) (w := ⟨m, ()⟩) hn, hmap]
  generalize release (silent _) n r.geometry.baseLevel ⟨m.withdraw n.firstLeaf, ()⟩ = result
    at htrue hstore ⊢
  obtain ⟨ok, w⟩ := result
  obtain rfl : ok = true := htrue
  rw [Metadata.giveBack, ← show w.store = _ from hstore]
  rfl

/-! ## 3. Every call -/

/-- **A call** takes a block, or gives back a recorded one, or frees an address at which no recorded
block starts. -/
theorem Region.call_cases (r : Region) (m : Metadata r.depth) (c : Call) :
    c.Takes ∨ (∃ n, m.Records n ∧ c = .free (r.addressOf n)) ∨
      ∃ address, (∀ n, m.Records n → r.addressOf n ≠ address) ∧ c = .free address := by
  cases c with
  | alloc _ | allocLayout _ => exact .inl trivial
  | free address =>
    by_cases hsome : ∃ n, m.Records n ∧ r.addressOf n = address
    · obtain ⟨n, hn, rfl⟩ := hsome
      exact .inr (.inl ⟨n, hn, rfl⟩)
    · exact .inr (.inr ⟨address, fun n hn he => hsome ⟨n, hn, he⟩, rfl⟩)

/-- **A call that nothing interferes with** goes from rest to rest. -/
theorem atRest_call (hr : r.Managed) (c : Call) {m : Metadata r.depth}
    (h : m.AtRest r.geometry.baseLevel) : (r.call c m).2.AtRest r.geometry.baseLevel := by
  rcases r.call_cases m c with hc | ⟨n, hn, rfl⟩ | ⟨address, hnone, rfl⟩
  · rcases granted_cases hr hc with ⟨e, hcall⟩ | ⟨l, hl, hcall⟩
    · rw [hcall]
      exact h
    · obtain ⟨_ | n, hfirst, hgranted⟩ := hcall m h.toSound h.coversNone
      · rw [hgranted]
        exact h
      · have hlevel := hfirst.level_eq
        have hheld := h.toSound.holding_withMarks (by omega) hfirst.2.2.1
        rw [hgranted]
        exact ⟨hheld.enter hr.depth_le, Metadata.quiet_marked h.quiet⟩
  · rw [free_recorded hr hn (h.level hn) (h.toSound.isFree_of_records hn)]
    exact h.giveBack hn
  · obtain ⟨reply, -, hcall⟩ := free_cases r address
    rw [hcall m _ h.toListed hnone]
    exact h

end Calls
end BuddyTree
