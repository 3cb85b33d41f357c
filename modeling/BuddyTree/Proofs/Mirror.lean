/-
# Metadata that mirrors live blocks

Metadata at rest *mirrors* a list of live blocks if the index records exactly these blocks and the
counters count them.  There is only one such metadata for given live blocks and a given number of
releases, the one that `Blocks.metadata` writes down.

The main facts: `Mirrors.eq_metadata` (every byte of the metadata is a function of the live
blocks), and `Mirrors.enter` and `Mirrors.leave` (what entering and releasing a block does to the
list).
-/
import BuddyTree.Canonical
import BuddyTree.Proofs.Rest

namespace BuddyTree

variable {d : Nat}

/-! ## 1. Nodes and blocks -/

namespace Node

/-- The half of a node's block is the block of its child. -/
theorem half?_of_child {a c : Node d} {s : Side} (h : c.id = NodeId.child a.id s) :
    a.block.half? s = some c.block := by
  obtain ⟨horder, hfirst⟩ := block_of_child h
  have hblock : a.block = ⟨a.block.first, c.order + 1⟩ := by rw [← horder]; rfl
  rw [hblock]
  cases s with
  | left =>
    rw [if_pos rfl, Nat.add_zero] at hfirst
    simp only [Block.half?, ← hfirst]
    rfl
  | right =>
    rw [if_neg (by decide)] at hfirst
    simp only [Block.half?, ← hfirst]
    rfl

/-- A leaf's block has no halves. -/
theorem half?_leaf {a : Node d} (h : a.level = d) (s : Side) : a.block.half? s = none := by
  have horder : a.order = 0 := by
    have := a.order_add_level
    omega
  have hblock : a.block = ⟨a.block.first, 0⟩ := by rw [← horder]; rfl
  rw [hblock]
  cases s <;> rfl

/-- A block gives back the number of its node. -/
theorem nodeId_block (n : Node d) : n.block.nodeId d = n.id := by
  obtain ⟨h, -⟩ := n.block_bounds
  rw [Block.nodeId, h]
  exact Nat.mul_div_cancel _ (Nat.two_pow_pos _)

/-- The blocks of an order are those of the nodes on one level, in the same places. -/
theorem block_eq_nth {n : Node d} {o : Nat} (ho : o ≤ d) (hn : n.level = d - o) :
    n.block = Block.nth o (n.id - 2 ^ (d - o)) := by
  have horder : n.order = o := by
    have := n.order_add_level
    omega
  obtain ⟨h, -⟩ := n.block_bounds
  have hpow : 2 ^ d = 2 ^ (d - o) * 2 ^ o := by rw [← Nat.pow_add]; congr 1; omega
  have hfirst : n.block.first = (n.id - 2 ^ (d - o)) * 2 ^ o := by
    rw [Nat.sub_mul, ← hpow, ← horder, ← h]
    omega
  rw [Block.nth, ← hfirst, ← horder]
  rfl

theorem exists_nth {o i : Nat} (ho : o ≤ d) (hi : i < 2 ^ (d - o)) :
    ∃ n : Node d, n.id = 2 ^ (d - o) + i ∧ n.block = Block.nth o i := by
  have hpow : 2 ^ (d - o + 1) = 2 * 2 ^ (d - o) := Nat.pow_succ'
  have hle : 2 ^ (d - o + 1) ≤ 2 ^ (d + 1) := Nat.pow_le_pow_right Nat.two_pos (by omega)
  have hpos := Nat.two_pow_pos (d - o)
  let n : Node d := ⟨2 ^ (d - o) + i, by omega, by omega⟩
  have hlevel : n.level = d - o := (NodeId.level_eq_iff n.pos).mpr ⟨by simp [n], by simp [n]; omega⟩
  refine ⟨n, rfl, ?_⟩
  rw [block_eq_nth ho hlevel]
  congr 1
  simp [n]

end Node

/-! ## 2. The bytes of given blocks -/

namespace Blocks

/-- A live block lies in a half of a node exactly if its node does. -/
theorem meetsHalf_iff {live : List Block} (hnode : ∀ b ∈ live, ∃ n : Node d, n.block = b)
    (a : Node d) (s : Side) :
    meetsHalf live a.block s = true ↔ Houses (fun n => n.block ∈ live) a s := by
  unfold meetsHalf
  by_cases hl : a.level < d
  · obtain ⟨c, hc⟩ := Node.exists_child hl s
    simp only [Node.half?_of_child hc, List.any_eq_true, decide_eq_true_eq]
    constructor
    · rintro ⟨b, hb, hw⟩
      obtain ⟨n, rfl⟩ := hnode b hb
      exact ⟨n, hb, (Node.inHalf_iff_of_child hc).mpr (Node.block_within_iff.mp hw)⟩
    · rintro ⟨n, hn, hin⟩
      exact ⟨n.block, hn, ((Node.inHalf_iff_of_child hc).mp hin).block_within⟩
  · have hleaf : a.level = d := by have := a.level_le; omega
    simp only [Node.half?_leaf hleaf, Bool.false_eq_true, false_iff]
    rintro ⟨n, -, hin⟩
    exact Node.not_inHalf_leaf hleaf s hin

/-- The status of a node that may hold blocks but is none. -/
theorem status_of_inner {top : Nat} {live : List Block} {n : Node d} (hn : n.block ∉ live)
    (hl : top ≤ n.level) :
    (status top live n).Plain ∧ (status top live n).has .block = false ∧
      (∀ s, (status top live n).isOccupied s = meetsHalf live n.block s) ∧
      ∀ s, (status top live n).isCoalescing s = false := by
  unfold status
  rw [if_neg hn, if_neg (by omega)]
  dsimp only
  cases hleft : meetsHalf live n.block .left <;> cases hright : meetsHalf live n.block .right
  · refine ⟨Status.plain_clear, rfl, fun s => ?_, fun s => by cases s <;> rfl⟩
    cases s <;> simp [hleft, hright]
  · refine ⟨Status.plain_clear.mark _, rfl, fun s => ?_, fun s => by cases s <;> rfl⟩
    cases s <;> simp [hleft, hright]
  · refine ⟨Status.plain_clear.mark _, rfl, fun s => ?_, fun s => by cases s <;> rfl⟩
    cases s <;> simp [hleft, hright]
  · refine ⟨(Status.plain_clear.mark _).mark _, rfl, fun s => ?_, fun s => by cases s <;> rfl⟩
    cases s <;> simp [hleft, hright]

end Blocks

/-! ## 3. Counters -/

/-- A block counts for its own order. -/
theorem orderIndex_eq_iff {n : Node d} {o : Fin (d + 1)} :
    n.orderIndex = o ↔ (n.block.order == o.val) = true := by
  rw [beq_iff_eq, Fin.ext_iff]
  rfl

namespace Metadata

/-- The counters count these blocks. -/
def Counts (m : Metadata d) (blocks : List Block) : Prop :=
  ∀ o : Fin (d + 1), m.count o = .ofNat (blocks.countP fun b => b.order == o.val)

section Counts

variable {m m' : Metadata d} {blocks blocks' : List Block}

/-- The order in which they are listed does not matter. -/
theorem Counts.perm (h : m.Counts blocks) (hp : blocks.Perm blocks') : m.Counts blocks' :=
  fun o => by rw [h o, hp.countP_eq]

theorem Counts.congr (h : m.Counts blocks) (hc : m'.count = m.count) : m'.Counts blocks :=
  fun o => by rw [hc, h o]

/-- **One block more.** -/
theorem Counts.enter (h : m.Counts blocks) (n : Node d) :
    (m.enter n).Counts (n.block :: blocks) := by
  intro o
  rw [count_enter, h o, List.countP_cons]
  by_cases ho : n.orderIndex = o
  · rw [if_pos ho, if_pos (orderIndex_eq_iff.mp ho), UInt64.ofNat_add]
    rfl
  · rw [if_neg ho, if_neg (fun hc => ho (orderIndex_eq_iff.mpr hc))]
    rfl

/-- **One block less.** -/
theorem Counts.discharge {n : Node d} (h : m.Counts (n.block :: blocks)) :
    (m.discharge n).Counts blocks := by
  intro o
  rw [count_discharge, h o, List.countP_cons]
  by_cases ho : n.orderIndex = o
  · rw [if_pos ho, if_pos (orderIndex_eq_iff.mp ho), UInt64.ofNat_add]
    exact UInt64.add_sub_cancel _ _
  · rw [if_neg ho, if_neg (fun hc => ho (orderIndex_eq_iff.mpr hc))]
    rfl

end Counts

/-! ## 4. Mirroring -/

/-- The metadata is at rest, and these are its live blocks. -/
structure Mirrors (m : Metadata d) (top : Nat) (live : List Block) : Prop
    extends m.AtRest top where
  node : ∀ b ∈ live, ∃ n : Node d, n.block = b
  mem : ∀ n : Node d, n.block ∈ live ↔ m.Records n
  nodup : live.Nodup
  count : ∀ o : Fin (d + 1), m.count o = .ofNat (live.countP fun b => b.order == o.val)

variable {m : Metadata d} {top : Nat} {live : List Block}

theorem mirrors_blank (d top : Nat) : (blank d).Mirrors top [] where
  toAtRest := atRest_blank d top
  node := fun b hb => absurd hb List.not_mem_nil
  mem := fun n => iff_of_false List.not_mem_nil (not_records_blank n)
  nodup := List.nodup_nil
  count := by simp

/-- The byte of every node is determined. -/
theorem Mirrors.get_eq (h : m.Mirrors top live) (n : Node d) :
    m.tree.get n = Blocks.status top live n := by
  by_cases hn : n.block ∈ live
  · rw [h.fits.busy ((h.mem n).mp hn), Blocks.status, if_pos hn]
  · have hrec : ¬ m.Records n := fun hr => hn ((h.mem n).mpr hr)
    by_cases hl : top ≤ n.level
    · obtain ⟨hplain, hblock, hocc, hcoal⟩ := Blocks.status_of_inner hn hl
      have hhouse : ∀ s, Houses m.Records n s ↔ Blocks.meetsHalf live n.block s = true := by
        intro s
        rw [Blocks.meetsHalf_iff h.node]
        exact ⟨Houses.mono fun b => (h.mem b).mpr, Houses.mono fun b => (h.mem b).mp⟩
      refine Status.Plain.ext (h.fits.plain n) hplain ?_
      rintro (_ | c | c)
      · rw [h.fits.vacant hrec, hblock]
      · have hiff := h.fits.below_iff hrec hl c
        rw [h.quiet n c, and_iff_left rfl, hhouse, ← hocc] at hiff
        exact Bool.eq_iff_iff.mpr hiff.symm
      · exact (h.quiet n c).trans (hcoal c).symm
    · rw [h.fits.above (by omega), Blocks.status, if_neg hn, if_pos (by omega)]

/-- The entry of every granule is determined. -/
theorem Mirrors.entry_eq (h : m.Mirrors top live) (leaf : Fin (2 ^ d)) :
    m.entry leaf = Blocks.entry d live leaf := by
  unfold Blocks.entry
  split
  · next hnone =>
    by_cases hz : (m.entry leaf).toNat = 0
    · exact UInt32.toNat_inj.mp (by simpa using hz)
    · obtain ⟨n, hn, hleaf⟩ := h.entry leaf hz
      have := List.find?_eq_none.mp hnone n.block ((h.mem n).mpr hn)
      exact absurd (congrArg Fin.val hleaf) (by simpa [Node.block] using this)
  · next b hsome =>
    obtain ⟨n, rfl⟩ := h.node b (List.mem_of_find?_eq_some hsome)
    have hleaf : n.firstLeaf = leaf := Fin.ext (by simpa [Node.block] using List.find?_some hsome)
    have hrec : (m.entry n.firstLeaf).toNat = n.id :=
      (h.mem n).mp (List.mem_of_find?_eq_some hsome)
    rw [Node.nodeId_block, ← hrec, hleaf, UInt32.ofNat_toNat]

/-- **The live blocks decide.**  All metadata is that of the live blocks and of the number of
releases. -/
theorem Mirrors.eq_metadata (h : m.Mirrors top live) :
    m = Blocks.metadata d top live m.released := by
  have htree : m.tree = Blocks.tree d top live := by
    refine Tree.ext_get (fun n => (h.get_eq n).trans (Blocks.get_tree live n).symm) ?_
    rw [h.fits.spare]
    simp [Blocks.tree]
  have hindex : m.index = Vector.ofFn fun leaf => Blocks.entry d live leaf := by
    refine Vector.ext fun i hi => ?_
    rw [Vector.getElem_ofFn]
    exact h.entry_eq ⟨i, hi⟩
  have hlive : m.live = Vector.ofFn fun o : Fin (d + 1) =>
      .ofNat (live.countP fun b => b.order == o.val) := by
    refine Vector.ext fun i hi => ?_
    rw [Vector.getElem_ofFn]
    exact h.count ⟨i, hi⟩
  obtain ⟨tree, index, counts, released⟩ := m
  simp only at htree hindex hlive
  rw [htree, hindex, hlive]
  rfl

/-! ## 5. Entering and leaving -/

/-- **A block is entered.** -/
theorem Mirrors.enter {m' : Metadata d} {n : Node d} (hd : d ≤ maxDepth) (h : m.Mirrors top live)
    (hheld : m'.Holding top n top) (hq : m'.tree.Quiet) (hb : SameBooks m m') :
    (m'.enter n).Mirrors top (n.block :: live) where
  toAtRest := ⟨hheld.enter hd, hq⟩
  node := by
    intro b hb
    rcases List.mem_cons.mp hb with rfl | hb
    · exact ⟨n, rfl⟩
    · exact h.node b hb
  mem := by
    intro a
    rw [records_enter_iff hd hheld, hb.records, ← h.mem, List.mem_cons]
    constructor
    · rintro (he | ha)
      · exact .inr (Node.block_inj he)
      · exact .inl ha
    · rintro (ha | rfl)
      · exact .inr ha
      · exact .inl rfl
  nodup := by
    refine List.nodup_cons.mpr ⟨fun hn => ?_, h.nodup⟩
    rw [h.mem, ← hb.records] at hn
    exact hheld.not_records hn
  count := Counts.enter (Counts.congr h.count hb.count) n

/-- **A block leaves.**  It is a recorded one, and its entry is taken out before it is released and
counted. -/
theorem Mirrors.leave {m' : Metadata d} {n : Node d} (h : m.Mirrors top live) (hn : m.Records n)
    (h' : m'.AtRest top) (hb : SameBooks (m.withdraw n.firstLeaf) m') :
    (m'.discharge n).Mirrors top (live.erase n.block) where
  toAtRest := ⟨h'.toSound.discharge n, h'.quiet⟩
  node := fun b hb => h.node b (List.mem_of_mem_erase hb)
  mem := by
    intro a
    have hrec : (m'.discharge n).Records a ↔ (m.withdraw n.firstLeaf).Records a := by
      rw [← hb.records]
      rfl
    rw [hrec, records_withdraw_iff hn, h.nodup.mem_erase_iff, h.mem]
    constructor
    · rintro ⟨hne, ha⟩
      exact ⟨ha, fun he => hne (he ▸ rfl)⟩
    · rintro ⟨ha, hne⟩
      exact ⟨fun he => hne (Node.block_inj he), ha⟩
  nodup := h.nodup.erase _
  count := by
    have hsame : m'.Counts live := Counts.congr h.count hb.count
    exact Counts.discharge (hsame.perm (List.perm_cons_erase ((h.mem n).mpr hn)))

end Metadata
end BuddyTree
