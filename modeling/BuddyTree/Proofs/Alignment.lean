/-
# Alignment

A block lies at a multiple of its own size from the base, whatever the base.  So a block that is no
smaller than an alignment is aligned exactly if the base is; and the base has at least the alignment
of a granule.  A request for a layout is rounded up to its alignment, which makes every block that
holds it large enough for that, and is refused where no block of that size would do.

The main facts: `Region.Managed.dvd_addressOf_iff` (when a block is aligned),
`Region.Managed.suits_iff` (when it suits a layout that it holds), and `allocLayout_suits`.
-/
import BuddyTree.Proofs.Answers

namespace BuddyTree

variable {ε : Type}

/-! ## 1. Aligned blocks -/

/-- A node starts at a multiple of its own size, in granules. -/
theorem Node.two_pow_order_dvd_firstLeaf {d : Nat} (n : Node d) :
    2 ^ n.order ∣ n.firstLeaf.val := by
  have hleaves : 2 ^ n.order ∣ 2 ^ d := Nat.pow_dvd_pow 2 (Nat.sub_le _ _)
  refine (Nat.dvd_add_right hleaves).mp ?_
  rw [n.firstLeaf_val]
  exact Nat.dvd_mul_left _ _

section Aligned

variable {r : Region}

/-- **A block is aligned as the base is,** to any power of two up to its own size. -/
theorem Region.Managed.dvd_addressOf_iff (hr : r.Managed) {align : Nat}
    (hpow : isPowerOfTwo align = true) {n : Node r.depth}
    (hle : align ≤ 2 ^ n.order * r.geometry.minSize) : align ∣ r.addressOf n ↔ align ∣ r.base := by
  have hblock : align ∣ 2 ^ n.order * r.geometry.minSize :=
    dvd_of_isPowerOfTwo hpow (isPowerOfTwo_two_pow_mul hr.granule _) hle
  have hoffset : align ∣ n.firstLeaf.val * r.geometry.minSize :=
    Nat.dvd_trans hblock (Nat.mul_dvd_mul_right n.two_pow_order_dvd_firstLeaf _)
  exact (Nat.dvd_add_iff_left hoffset).symm

/-- The base has the alignment of a granule. -/
theorem Region.Managed.dvd_base_of_le (hr : r.Managed) {align : Nat}
    (hpow : isPowerOfTwo align = true) (hle : align ≤ r.geometry.minSize) : align ∣ r.base :=
  Nat.dvd_trans (dvd_of_isPowerOfTwo hpow hr.granule hle) hr.aligned

end Aligned

/-! ## 2. What a search claims -/

/-- **A node of the level** that was searched, whoever comes in between. -/
theorem level_of_search {d : Nat} {obs : Observer d ε} {top order : Nat} {n : Node d}
    {w w' : World d ε} (h : search obs top order w = (some n, w')) : n.level = d - order := by
  have hend : Ended (fun _ => True) (fun n _ => n.level = d - order) (search obs top order w) :=
    search_rule (P := fun _ => True) (fun _ _ _ _ => trivial)
      (fun _ hn _ _ => ⟨fun _ _ => hn, fun _ _ _ => trivial⟩) trivial
  rw [h] at hend
  exact hend

/-- **A block that is handed out** is one that the search claimed. -/
theorem Region.exists_of_alloc_eq_ok {r : Region} {obs : Observer r.depth ε} {bytes address : Nat}
    {w : World r.depth ε} (h : (r.alloc obs bytes w).1 = .ok address) :
    ∃ order n w', r.geometry.orderFor? bytes = some order ∧
      search obs r.geometry.baseLevel order w = (some n, w') ∧ r.addressOf n = address ∧
      (r.alloc obs bytes w).2 =
        obs.react (.claimed n.id order n.firstLeaf) (w'.mapStore (.enter n)) := by
  unfold alloc at h ⊢
  cases ho : r.geometry.orderFor? bytes with
  | none =>
    simp only [ho] at h
    cases h
  | some order =>
    simp only [ho] at h ⊢
    rcases hs : search obs r.geometry.baseLevel order w with ⟨_ | n, w'⟩
    · simp only [hs] at h
      cases h
    · simp only [hs] at h ⊢
      exact ⟨order, n, w', rfl, hs, Except.ok.inj h, rfl⟩

/-- A block for a size holds it. -/
theorem Region.Managed.le_of_orderFor? {r : Region} (hr : r.Managed) {bytes order : Nat}
    (ho : r.geometry.orderFor? bytes = some order) {n : Node r.depth}
    (hn : n.level = r.depth - order) : bytes ≤ 2 ^ n.order * r.geometry.minSize := by
  have hle : order ≤ r.depth :=
    Nat.le_trans (Geometry.orderFor?_le hr.minSize_pos ho) (Nat.sub_le _ _)
  have horder : n.order = order := by
    unfold Node.order
    omega
  rw [horder]
  exact (((Geometry.orderFor?_eq_some_iff hr.minSize_pos).mp ho).2 order).mp (Nat.le_refl _)

/-! ## 3. Allocating for a layout -/

/-- The block of `n` is a place for the layout, and starts at `address`. -/
structure Region.Suits (r : Region) (layout : Layout) (n : Node r.depth) (address : Nat) :
    Prop where
  starts : r.addressOf n = address
  aligned : address % layout.align = 0
  holds : layout.size ≤ 2 ^ n.order * r.geometry.minSize
  base_le : r.base ≤ address
  inside : address + 2 ^ n.order * r.geometry.minSize ≤ r.base + r.geometry.totalMemory

/-- **A block that holds the layout** suits it, unless the alignment is above that of a granule and
the base does not have it. -/
theorem Region.Managed.suits_iff {r : Region} (hr : r.Managed) {layout : Layout} {n : Node r.depth}
    (hn : max layout.size layout.align ≤ 2 ^ n.order * r.geometry.minSize) :
    r.Suits layout n (r.addressOf n) ↔
      ¬ (layout.align > r.geometry.minSize ∧ r.base % layout.align ≠ 0) := by
  obtain ⟨hsize, halign⟩ := Nat.max_le.mp hn
  have hdvd := hr.dvd_addressOf_iff layout.align_pow halign
  constructor
  · rintro h ⟨-, hbase⟩
    exact hbase (Nat.mod_eq_zero_of_dvd (hdvd.mp (Nat.dvd_of_mod_eq_zero h.aligned)))
  · intro hnot
    have hbase : layout.align ∣ r.base := by
      by_cases hgranule : layout.align ≤ r.geometry.minSize
      · exact hr.dvd_base_of_le layout.align_pow hgranule
      · exact Nat.dvd_of_mod_eq_zero (Decidable.byContradiction fun hne => hnot ⟨by omega, hne⟩)
    exact ⟨rfl, Nat.mod_eq_zero_of_dvd (hdvd.mpr hbase), hsize, Nat.le_add_right _ _,
      r.addressOf_add_le n⟩

/-- Without a layout no alignment is refused. -/
theorem Region.alloc_ne_alignment (r : Region) (obs : Observer r.depth ε) (bytes : Nat)
    (w : World r.depth ε) (align : Nat) : (r.alloc obs bytes w).1 ≠ .error (.alignment align) := by
  unfold alloc
  split
  · nofun
  · split <;> nofun

/-- **An allocation for a layout,** whatever the metadata and whoever comes in between.  An address
that is returned is that of the block that was claimed, and the block suits the layout.  The
alignment is refused exactly if it is above that of a granule and the base does not have it; then no
block that holds the layout is aligned, of whatever order.  Otherwise the answer is that for the
larger one of size and alignment. -/
theorem allocLayout_suits {base size : Nat} {config : Config} {r : Region}
    (h : Region.of base size config = .ok r) (layout : Layout) (obs : Observer r.depth ε)
    (w : World r.depth ε) :
    let refused := layout.align > r.geometry.minSize ∧ r.base % layout.align ≠ 0
    let bytes := max layout.size layout.align
    let answer := r.allocLayout obs layout w
    (∀ address, answer.1 = .ok address → ∃ order n w', r.geometry.orderFor? bytes = some order ∧
      search obs r.geometry.baseLevel order w = (some n, w') ∧
      answer.2 = obs.react (.claimed n.id order n.firstLeaf) (w'.mapStore (.enter n)) ∧
      r.Suits layout n address) ∧
    ((∃ align, answer.1 = .error (.alignment align)) ↔ refused) ∧
    (refused → answer = (.error (.alignment layout.align), w) ∧
      ∀ n : Node r.depth, bytes ≤ 2 ^ n.order * r.geometry.minSize →
        r.addressOf n % layout.align ≠ 0) ∧
    (¬ refused → answer = r.alloc obs bytes w) := by
  intro refused bytes answer
  have hr := Region.managed_of h
  have hanswer : ¬ refused → answer = r.alloc obs bytes w := fun hnot => if_neg hnot
  have hrefused : refused → answer = (.error (.alignment layout.align), w) :=
    fun hyes => if_pos hyes
  refine ⟨fun address hok => ?_, ⟨fun ⟨align, herror⟩ => ?_, fun hyes => ⟨layout.align, ?_⟩⟩,
    fun hyes => ⟨hrefused hyes, fun n hn hzero => ?_⟩, hanswer⟩
  · have hnot : ¬ refused := fun hyes => by
      rw [hrefused hyes] at hok
      cases hok
    rw [hanswer hnot] at hok ⊢
    obtain ⟨order, n, w', ho, hs, rfl, hend⟩ := Region.exists_of_alloc_eq_ok hok
    have hholds := hr.le_of_orderFor? ho (level_of_search hs)
    exact ⟨order, n, w', ho, hs, hend, (hr.suits_iff hholds).mpr hnot⟩
  · refine Decidable.byContradiction fun hnot => ?_
    rw [hanswer hnot] at herror
    exact r.alloc_ne_alignment obs bytes w align herror
  · rw [hrefused hyes]
  · obtain ⟨hsize, halign⟩ := Nat.max_le.mp hn
    exact (hr.suits_iff hn).mp ⟨rfl, hzero, hsize, Nat.le_add_right _ _, r.addressOf_add_le n⟩ hyes

/-- Pages that begin at an odd page: two of them cannot be had aligned to their size, and more than
a page with the alignment of one can. -/
theorem allocLayout_suits_of_odd :
    let r : Region := ⟨12288, ⟨4096, 3, 0⟩⟩
    let refused : Layout := ⟨100, 8192, by decide, by decide⟩
    let granted : Layout := ⟨5000, 4096, by decide, by decide⟩
    let w : World r.depth Unit := ⟨.blank _, ()⟩
    Region.of 12288 32768 ⟨4096, 9⟩ = .ok r ∧
      (r.allocLayout (silent _) refused w).1 = .error (.alignment 8192) ∧
      (∀ n : Node r.depth, 8192 ≤ 2 ^ n.order * 4096 → r.addressOf n % 8192 ≠ 0) ∧
      (r.allocLayout (silent _) granted w).1 = .ok 12288 ∧
      ∃ n : Node r.depth, r.Suits granted n 12288 := by
  intro r refused granted w
  have hr : Region.of 12288 32768 ⟨4096, 9⟩ = .ok r := rfl
  have hrefused : refused.align > r.geometry.minSize ∧ r.base % refused.align ≠ 0 := by decide
  obtain ⟨herror, hnone⟩ := (allocLayout_suits hr refused (silent _) w).2.2.1 hrefused
  have haddress : (r.allocLayout (silent _) granted w).1.toOption = some 12288 := by decide +kernel
  have hok : (r.allocLayout (silent _) granted w).1 = .ok 12288 := by
    generalize (r.allocLayout (silent _) granted w).1 = result at haddress ⊢
    cases result <;> cases haddress
    rfl
  obtain ⟨order, n, w', -, -, -, hsuits⟩ := (allocLayout_suits hr granted (silent _) w).1 12288 hok
  exact ⟨hr, congrArg Prod.fst herror, hnone, hok, n, hsuits⟩

end BuddyTree
