/-
# Histories

What a caller with nobody else around can rely on, from the first call on.  The replies and the
counters are those of the rules in `Blocks`, and all metadata is a function of the live blocks: the
history that led to them leaves no trace but the number of releases.

The main facts: `replies_eq_blocks` and `metadata_eq_blocks`.
-/
import BuddyTree.Proofs.Counters
import BuddyTree.Proofs.Refinement

namespace BuddyTree

/-! ## 1. Replies and counters -/

/-- The rules find a size too large exactly above the largest block. -/
theorem Blocks.leastOrder?_eq_none_iff {g : Geometry} (hmin : 0 < g.minSize) {size : Nat} :
    leastOrder? g size = none ↔ g.maxSize < size := by
  rw [leastOrder?_eq_orderFor? hmin, Geometry.orderFor?]
  split <;> simp_all

/-- Metadata after a history mirrors what is live then. -/
theorem mirrors_calls {r : Region} (hr : r.Managed) (cs : List Call) :
    (r.calls cs (.blank _)).2.Mirrors r.geometry.baseLevel (Blocks.calls r cs []).2 :=
  ((Metadata.mirrors_blank _ _).calls hr cs).2.1

/-- **Sequential refinement.**  Whatever was called, the replies are those of the rules.  The
counters then have the number of live blocks of each order, the bytes in live blocks, and the
number of blocks given back; and the rules refuse a size as too large exactly if it is larger than
the largest block. -/
theorem replies_eq_blocks {base size : Nat} {config : Config} {r : Region}
    (h : Region.of base size config = .ok r) (cs : List Call) :
    let replies := (r.calls cs (.blank _)).1
    let a : Allocator := ⟨r, (r.calls cs (.blank _)).2⟩
    let live := (Blocks.calls r cs []).2
    replies = (Blocks.calls r cs []).1 ∧
      (∀ order, (a.usedBlocks? order).map UInt64.toNat =
        if order ≤ r.geometry.maxOrder then some (live.countP fun b => b.order == order)
        else none) ∧
      a.usedMemory.toNat = Blocks.bytes r.geometry.minSize live ∧
      a.store.released = .ofNat (Blocks.releases cs replies) ∧
      ∀ bytes, Blocks.leastOrder? r.geometry bytes = none ↔ r.geometry.maxSize < bytes := by
  intro replies a live
  have hr := Region.managed_of h
  obtain ⟨hreplies, hmirrors, hreleased⟩ := (Metadata.mirrors_blank _ _).calls hr cs
  refine ⟨hreplies, fun order => ?_, ?_, ?_, ?_⟩
  · unfold Allocator.usedBlocks?
    by_cases ho : order ≤ r.geometry.maxOrder
    · rw [if_pos ho, if_pos ho, Option.map_some]
      refine congrArg some (hmirrors.liveAt_toNat hr.depth_le ?_)
      exact Nat.le_trans ho (Nat.sub_le _ _)
    · rw [if_neg ho, if_neg ho]
      rfl
  · refine (hmirrors.usedMemory_toNat ?_).1
    have hfits := hr.fits
    have hpos := hr.base_pos
    unfold Geometry.totalMemory at hfits
    show 2 ^ r.geometry.depth * r.geometry.minSize < addressLimit
    omega
  · rw [show replies = (Blocks.calls r cs []).1 from hreplies]
    exact hreleased.trans (UInt64.zero_add _)
  · exact fun bytes => Blocks.leastOrder?_eq_none_iff hr.minSize_pos

/-- Eight granules: three calls that succeed, a block given back once and once more, a size that
does not fit any more, and one that never does. -/
theorem replies_eq_blocks_of_eight :
    let r : Region := ⟨4096, ⟨1, 3, 0⟩⟩
    let cs : List Call := [.alloc 3, .alloc 1, .alloc 0, .free 4100, .free 4100, .alloc 4, .alloc 9]
    Region.of 4096 9 ⟨1, 3⟩ = .ok r ∧
      (r.calls cs (.blank _)).1 = (Blocks.calls r cs []).1 ∧
      (Blocks.calls r cs []).2 = [⟨5, 0⟩, ⟨0, 2⟩] ∧
      (⟨r, (r.calls cs (.blank _)).2⟩ : Allocator).usedMemory.toNat = 5 ∧
      (r.calls cs (.blank _)).2.released = 1 := by
  intro r cs
  have h : Region.of 4096 9 ⟨1, 3⟩ = .ok r := rfl
  obtain ⟨hreplies, -, hused, hreleased, -⟩ := replies_eq_blocks h cs
  have hlive : (Blocks.calls r cs []).2 = [⟨5, 0⟩, ⟨0, 2⟩] := by decide +kernel
  have hcount : Blocks.releases cs (Blocks.calls r cs []).1 = 1 := by decide +kernel
  rw [hlive] at hused
  rw [hreplies, hcount] at hreleased
  exact ⟨h, hreplies, hlive, hused, hreleased⟩

/-! ## 2. Bytes -/

/-- Every byte of the metadata, said by the live blocks. -/
structure Metadata.Canonical {d : Nat} (m : Metadata d) (top : Nat) (live : List Block) : Prop where
  /-- A live block is a node that is not too high, -/
  placed : ∀ b ∈ live, ∃ n : Node d, n.block = b ∧ top ≤ n.level
  /-- and its node is busy. -/
  busy : ∀ n : Node d, n.block ∈ live → (m.tree.get n).byte = 0x13
  /-- A node above a live one is occupied on the sides on which live blocks lie, and has no other
  bit, -/
  above : ∀ (n a : Node d) (s : Side), n.block ∈ live → n.InHalf a s → top ≤ a.level →
    (∀ c, (m.tree.get a).has (.occupied c) = true ↔ ∃ b : Node d, b.block ∈ live ∧ b.InHalf a c) ∧
      (m.tree.get a).byte &&& ~~~0x03 = 0
  /-- and any other node, also any node above the top level, has no bit at all. -/
  zero : ∀ a : Node d, a.block ∉ live →
    (top ≤ a.level → ∀ (n : Node d) (s : Side), n.block ∈ live → ¬ n.InHalf a s) →
    (m.tree.get a).byte = 0
  /-- The index has a live block at its first granule, -/
  entry : ∀ n : Node d, n.block ∈ live → (m.entry n.firstLeaf).toNat = n.id
  /-- and nothing at any other granule. -/
  empty : ∀ leaf : Fin (2 ^ d), (∀ n : Node d, n.block ∈ live → n.firstLeaf ≠ leaf) →
    m.entry leaf = 0
  /-- The counters count the live blocks of each order. -/
  count : ∀ o : Fin (d + 1), (m.count o).toNat = live.countP fun b => b.order == o.val

namespace Metadata

variable {d : Nat} {m m' : Metadata d} {top : Nat} {live live' : List Block}

/-- The two occupied flags are all that an inner node can have. -/
theorem Mirrors.inner_bits (h : m.Mirrors top live) {a : Node d} (ha : a.block ∉ live) :
    (m.tree.get a).byte &&& ~~~0x03 = 0 := by
  rw [h.get_eq, Blocks.status, if_neg ha]
  split
  · decide
  · dsimp only
    split <;> split <;> decide

theorem Mirrors.canonical (hd : d ≤ maxDepth) (h : m.Mirrors top live) :
    m.Canonical top live where
  placed := by
    intro b hb
    obtain ⟨n, rfl⟩ := h.node b hb
    exact ⟨n, rfl, h.level ((h.mem n).mp hb)⟩
  busy := fun n hn => by rw [h.fits.busy ((h.mem n).mp hn)]; rfl
  above := by
    intro n a s hn hin hl
    have ha : a.block ∉ live := fun ha => h.apart ((h.mem a).mp ha) ((h.mem n).mp hn) hin
    refine ⟨fun c => ?_, h.inner_bits ha⟩
    have hiff := h.fits.below_iff (fun hr => ha ((h.mem a).mpr hr)) hl c
    rw [h.quiet a c, and_iff_left rfl] at hiff
    refine hiff.symm.trans ⟨?_, ?_⟩
    · rintro ⟨b, hb, hbin⟩
      exact ⟨b, (h.mem b).mpr hb, hbin⟩
    · rintro ⟨b, hb, hbin⟩
      exact ⟨b, (h.mem b).mp hb, hbin⟩
  zero := by
    intro a ha hnone
    have hclear : m.tree.get a = .clear := by
      by_cases hl : top ≤ a.level
      · refine h.clear_of_isFree ((Status.isFree_iff _).mpr ⟨?_, fun c => ?_⟩)
        · exact h.fits.vacant fun hr => ha ((h.mem a).mpr hr)
        · have hiff := h.fits.below_iff (fun hr => ha ((h.mem a).mpr hr)) hl c
          rw [h.quiet a c, and_iff_left rfl] at hiff
          refine (Bool.not_eq_true _).mp fun hocc => ?_
          obtain ⟨b, hb, hbin⟩ := hiff.mpr hocc
          exact hnone hl b c ((h.mem b).mpr hb) hbin
      · exact h.fits.above (by omega)
    rw [hclear]
    rfl
  entry := fun n hn => (h.mem n).mp hn
  empty := by
    intro leaf hnone
    by_cases hz : (m.entry leaf).toNat = 0
    · exact UInt32.toNat_inj.mp (by simpa using hz)
    · obtain ⟨n, hn, hleaf⟩ := h.entry leaf hz
      exact absurd hleaf (hnone n ((h.mem n).mpr hn))
  count := by
    intro o
    have hcount := h.liveAt_toNat hd (Nat.le_of_lt_succ o.isLt)
    rwa [liveAt, Vector.getElem?_eq_getElem o.isLt] at hcount

/-- The order in which blocks became live makes no difference. -/
theorem Mirrors.congr_live (h : m.Mirrors top live) (hnodup : live'.Nodup)
    (hmem : ∀ b, b ∈ live' ↔ b ∈ live) : m.Mirrors top live' where
  toAtRest := h.toAtRest
  node := fun b hb => h.node b ((hmem b).mp hb)
  mem := fun n => (hmem n.block).trans (h.mem n)
  nodup := hnodup
  count := by
    intro o
    have hperm : live.Perm live' :=
      (List.perm_ext_iff_of_nodup h.nodup hnodup).mpr fun b => (hmem b).symm
    rw [h.count o, hperm.countP_eq]

/-- **Live blocks decide about everything but the number of releases.** -/
theorem Mirrors.eq_of_mem (h : m.Mirrors top live) (h' : m'.Mirrors top live')
    (hmem : ∀ b, b ∈ live' ↔ b ∈ live) :
    m'.tree = m.tree ∧ m'.index = m.index ∧ m'.live = m.live := by
  have heq := (h'.congr_live h.nodup fun b => (hmem b).symm).eq_metadata
  rw [heq, h.eq_metadata]
  exact ⟨rfl, rfl, rfl⟩

end Metadata

/-- **Canonical metadata.**  After any history, every byte of the metadata is said by the live
blocks.  Histories that end with the same live blocks leave the same tree, index and counters of
live blocks, and one that gives everything back leaves them as they were in the beginning. -/
theorem metadata_eq_blocks {base size : Nat} {config : Config} {r : Region}
    (h : Region.of base size config = .ok r) (cs : List Call) :
    let m := (r.calls cs (.blank _)).2
    let live := (Blocks.calls r cs []).2
    m.Canonical r.geometry.baseLevel live ∧
      m = Blocks.metadata r.depth r.geometry.baseLevel live m.released ∧
      (∀ ds, (∀ b, b ∈ (Blocks.calls r ds []).2 ↔ b ∈ live) →
        let m' := (r.calls ds (.blank _)).2
        m'.tree = m.tree ∧ m'.index = m.index ∧ m'.live = m.live) ∧
      (live = [] → m.tree = .blank _ ∧ m.index = Vector.replicate _ 0 ∧
        m.live = Vector.replicate _ 0) := by
  intro m live
  have hr := Region.managed_of h
  have hm := mirrors_calls hr cs
  refine ⟨hm.canonical hr.depth_le, hm.eq_metadata, fun ds hds => ?_, fun hlive => ?_⟩
  · exact hm.eq_of_mem (mirrors_calls hr ds) hds
  · refine Metadata.Mirrors.eq_of_mem (Metadata.mirrors_blank _ r.geometry.baseLevel) hm ?_
    intro b
    rw [show (Blocks.calls r cs []).2 = [] from hlive]

/-- A detour: a block that was taken and given back again leaves nothing behind. -/
theorem metadata_eq_blocks_of_detour :
    let r : Region := ⟨4096, ⟨1, 3, 1⟩⟩
    let m := (r.calls [.alloc 2, .alloc 1, .alloc 4, .free 4098, .free 4100] (.blank _)).2
    let m' := (r.calls [.alloc 2] (.blank _)).2
    Region.of 4096 8 ⟨1, 2⟩ = .ok r ∧ m.Canonical 1 [⟨0, 1⟩] ∧
      m'.tree = m.tree ∧ m'.index = m.index ∧ m'.live = m.live := by
  intro r m m'
  have h : Region.of 4096 8 ⟨1, 2⟩ = .ok r := rfl
  have hlive : (Blocks.calls r [.alloc 2, .alloc 1, .alloc 4, .free 4098, .free 4100] []).2 =
      [⟨0, 1⟩] := by decide +kernel
  have hlive' : (Blocks.calls r [.alloc 2] []).2 = [⟨0, 1⟩] := by decide +kernel
  obtain ⟨hcanonical, -, hsame, -⟩ :=
    metadata_eq_blocks h [.alloc 2, .alloc 1, .alloc 4, .free 4098, .free 4100]
  rw [hlive] at hcanonical
  exact ⟨h, hcanonical, hsame [.alloc 2] fun b => by rw [hlive, hlive']⟩

end BuddyTree
