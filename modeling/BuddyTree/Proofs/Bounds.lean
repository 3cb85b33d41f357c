/-
# Everything fits its word

Sizes and addresses are held in 64 bits and node numbers in 32.  Here they are exact numbers, so
that none of them wraps is a bound on each: the shape of a region is bounded by the region, its
metadata by the greatest depth, and the address of a block by the end of the managed memory, which
may be the end of the address space.

The main facts: `Geometry.fits_of` (the shape), `Region.Managed.locates` (the nodes), and
`numbers_fit`.
-/
import BuddyTree.Proofs.Answers

namespace BuddyTree

/-! ## 1. The shape of a region -/

namespace Geometry

variable {g : Geometry} {size : Nat} {config : Config}

/-- The numbers of a shape for `size` bytes are in proportion, and fit into 64 bits. -/
structure Fits (g : Geometry) (size : Nat) : Prop where
  /-- What is covered is there, -/
  covered : g.totalMemory ≤ size
  /-- and twice as much would not be. -/
  tail : size - g.totalMemory < g.totalMemory
  largest : g.maxSize ≤ g.totalMemory
  levels : g.baseLevel + g.maxOrder = g.depth
  totalMemory_lt : g.totalMemory < addressLimit
  maxSize_lt : g.maxSize < addressLimit
  metadata_lt : g.treeBytes + g.indexBytes < addressLimit
  blockSize_lt : ∀ order bytes, g.blockSize? order = some bytes → bytes < addressLimit

theorem blockSize?_le {order bytes : Nat} (h : g.blockSize? order = some bytes) :
    bytes ≤ g.maxSize := by
  unfold blockSize? at h
  split at h
  · cases h
  · next hle =>
    cases h
    exact Nat.mul_le_mul_right _ (Nat.pow_le_pow_right Nat.two_pos (Nat.not_lt.mp hle))

/-- The largest power of two of granules that fits. -/
theorem totalMemory_bounds (h : ofRegion size config = .ok g) :
    g.totalMemory ≤ size ∧ size < 2 * g.totalMemory := by
  obtain ⟨hpow, hle, -, rfl⟩ := ofRegion_eq_ok_iff.mp h
  obtain ⟨e, he⟩ := isPowerOfTwo_iff.mp hpow
  have hmin : 0 < config.minSize := he ▸ Nat.two_pow_pos e
  have hgranules : size / config.minSize ≠ 0 := Nat.ne_of_gt (Nat.div_pos hle hmin)
  constructor
  · exact (Nat.le_div_iff_mul_le hmin).mp (Nat.log2_self_le hgranules)
  · have hlt : size / config.minSize < 2 ^ ((size / config.minSize).log2 + 1) := Nat.lt_log2_self
    rw [Nat.div_lt_iff_lt_mul hmin, Nat.pow_succ', Nat.mul_assoc] at hlt
    exact hlt

/-- A byte for each slot and four for each granule, up to the greatest depth. -/
theorem metadata_le (h : g.depth ≤ maxDepth) : g.treeBytes + g.indexBytes ≤ 6 * 2 ^ maxDepth := by
  have hpow : 2 ^ g.depth ≤ 2 ^ maxDepth := Nat.pow_le_pow_right Nat.two_pos h
  unfold treeBytes treeNodes indexBytes leaves
  rw [Nat.pow_succ]
  omega

/-- **The shape fits.** -/
theorem fits_of (hsize : size < addressLimit) (h : ofRegion size config = .ok g) : g.Fits size := by
  obtain ⟨hcovered, hhalf⟩ := totalMemory_bounds h
  obtain ⟨-, -, hdepth, hg⟩ := ofRegion_eq_ok_iff.mp h
  have hbase : g.baseLevel ≤ g.depth := by
    rw [hg]
    exact Nat.sub_le _ _
  have hlargest : g.maxSize ≤ g.totalMemory :=
    Nat.mul_le_mul_right _ (Nat.pow_le_pow_right Nat.two_pos (Nat.sub_le _ _))
  have hmetadata := metadata_le (g := g) (by rw [hg]; exact hdepth)
  refine ⟨hcovered, by omega, hlargest, ?_, by omega, by omega, ?_, fun order bytes hb => ?_⟩
  · unfold maxOrder
    omega
  · exact Nat.lt_of_le_of_lt hmetadata (by decide)
  · have := blockSize?_le hb
    omega

end Geometry

/-! ## 2. Nodes and blocks -/

namespace Region

variable {r : Region}

/-- A node's number fits the index, and the first and the last byte of its block have an address. -/
structure Locates (r : Region) (n : Node r.depth) : Prop where
  id_lt : n.id < 2 ^ (32 : Nat)
  /-- What the index has for the block is the node's number, and leads back to the node. -/
  stored : ∀ m : Metadata r.depth, ((m.enter n).entry n.firstLeaf).toNat = n.id ∧
    Node.ofId? r.depth ((m.enter n).entry n.firstLeaf).toNat = some n
  first_le : r.base + NodeId.firstLeaf n.id r.depth * r.geometry.minSize ≤ addressLimit - 1
  last_le : r.addressOf n + (2 ^ n.order * r.geometry.minSize - 1) ≤ addressLimit - 1

/-- **Every node fits.** -/
theorem Managed.locates (hr : r.Managed) (n : Node r.depth) : r.Locates n := by
  have hid : ∀ m : Metadata r.depth, ((m.enter n).entry n.firstLeaf).toNat = n.id := fun m => by
    rw [Metadata.entry_enter, if_pos rfl, Metadata.toNat_ofNat_id hr.depth_le]
  have hbytes : 0 < 2 ^ n.order * r.geometry.minSize :=
    Nat.mul_pos (Nat.two_pow_pos _) hr.minSize_pos
  have hend : r.addressOf n + 2 ^ n.order * r.geometry.minSize ≤ addressLimit :=
    Nat.le_trans (r.addressOf_add_le n) hr.fits
  refine ⟨?_, fun m => ⟨hid m, ?_⟩, ?_, by omega⟩
  · exact Nat.lt_of_lt_of_le n.lt (Nat.pow_le_pow_right Nat.two_pos (Nat.succ_le_succ hr.depth_le))
  · rw [hid, Node.ofId?, dif_pos ⟨n.pos, n.lt⟩]
  · show r.addressOf n ≤ addressLimit - 1
    omega

end Region

/-! ## 3. All of them -/

/-- **Nothing wraps.**  A region of `size` bytes has a shape exactly if its granules are a power of
two, one of them fits, and the tree has at most 32 levels; the numbers of the shape then fit.  So do,
in every region that is accepted, the number of each node, the address at which its block begins, and
that at which it ends. -/
theorem numbers_fit {size : Nat} (hsize : size < addressLimit) (config : Config) :
    ((∃ g, Geometry.ofRegion size config = .ok g) ↔
      (∃ k : Nat, config.minSize = 2 ^ k) ∧ config.minSize ≤ size ∧
        (size / config.minSize).log2 ≤ 31) ∧
    (∀ g, Geometry.ofRegion size config = .ok g → g.Fits size) ∧
    ∀ base r, Region.of base size config = .ok r → ∀ n : Node r.depth, r.Locates n := by
  refine ⟨?_, fun g hg => Geometry.fits_of hsize hg,
    fun base r h n => (Region.managed_of h).locates n⟩
  rw [← isPowerOfTwo_iff]
  constructor
  · rintro ⟨g, hg⟩
    obtain ⟨hpow, hle, hdepth, -⟩ := Geometry.ofRegion_eq_ok_iff.mp hg
    exact ⟨hpow, hle, hdepth⟩
  · rintro ⟨hpow, hle, hdepth⟩
    exact ⟨_, Geometry.ofRegion_eq_ok_iff.mpr ⟨hpow, hle, hdepth, rfl⟩⟩

/-- The deepest tree over pages, at the very end of the address space: the last byte of its last
page has the last address. -/
theorem numbers_fit_of_last :
    let base := 2 ^ (64 : Nat) - 2 ^ (43 : Nat)
    let r : Region := ⟨base, ⟨4096, 31, 22⟩⟩
    let n : Node r.depth := ⟨2 ^ (32 : Nat) - 1, by decide, by decide⟩
    2 ^ (43 : Nat) < addressLimit ∧ Region.of base (2 ^ (43 : Nat)) ⟨4096, 9⟩ = .ok r ∧
      r.geometry.Fits (2 ^ (43 : Nat)) ∧ r.Locates n ∧
      r.addressOf n + (2 ^ n.order * r.geometry.minSize - 1) = addressLimit - 1 := by
  intro base r n
  have hsize : 2 ^ (43 : Nat) < addressLimit := by decide
  have hg : Geometry.ofRegion (2 ^ (43 : Nat)) ⟨4096, 9⟩ = .ok r.geometry :=
    Geometry.ofRegion_eq_ok_iff.mpr (by decide +kernel)
  have hr : Region.of base (2 ^ (43 : Nat)) ⟨4096, 9⟩ = .ok r :=
    Region.of_eq_ok_iff.mpr ⟨by decide, hg, by decide +kernel, by decide +kernel, rfl⟩
  obtain ⟨-, hshape, hnodes⟩ := numbers_fit hsize ⟨4096, 9⟩
  exact ⟨hsize, hr, hshape _ hg, hnodes base r hr n, by decide +kernel⟩

end BuddyTree
