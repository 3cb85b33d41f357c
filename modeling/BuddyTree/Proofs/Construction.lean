/-
# Bringing an allocator up

The arguments are checked one after the other, and the first check that fails is reported before any
memory is asked for.  Then the tree and the leaf index are asked for, the second only if the first
was granted.  If both were, there is an allocator, and what the memory held before makes no
difference to it.

What was asked for is read off a meter around the source (`Source.metered`), which refuses nothing
by itself and changes nothing.

The main facts: `Region.of_eq_rejection?` (the checks), `Allocator.create_metered` (the meter),
`Allocator.eq_fresh_of_create` and `pristine_fresh` (what there is in the end), and
`create_all_or_nothing`.
-/
import BuddyTree.Proofs.Quiescence
import BuddyTree.Statistics

namespace BuddyTree

/-! ## 1. The checks -/

/-- The shape that `size` bytes would have. -/
def Geometry.planned (size : Nat) (config : Config) : Geometry :=
  let depth := (size / config.minSize).log2
  ⟨config.minSize, depth, depth - config.maxOrder⟩

/-- The checks of the arguments in their order: whether each fails, and what is reported then. -/
def InitError.checks (base size : Nat) (config : Config) : List (Bool × InitError) :=
  let g := Geometry.planned size config
  [(base == 0, .nullBase),
    (!isPowerOfTwo config.minSize, .badGranule config.minSize),
    (size < config.minSize, .tooSmall size config.minSize),
    (maxDepth < g.depth, .tooLarge g.depth),
    (base % config.minSize ≠ 0, .misaligned base config.minSize),
    (addressLimit ≤ base + (g.totalMemory - 1), .overflow base size)]

/-- What the first check reports that fails. -/
def InitError.rejection? (base size : Nat) (config : Config) : Option InitError :=
  ((checks base size config).find? Prod.fst).map Prod.snd

/-- **The first check that fails** decides. -/
theorem Region.of_eq_rejection? (base size : Nat) (config : Config) :
    Region.of base size config =
      match InitError.rejection? base size config with
      | some e => .error e
      | none => .ok ⟨base, .planned size config⟩ := by
  have hplanned : Geometry.ofRegion size config =
      if !isPowerOfTwo config.minSize then .error (.badGranule config.minSize)
      else if size < config.minSize then .error (.tooSmall size config.minSize)
      else if maxDepth < (Geometry.planned size config).depth then
        .error (.tooLarge (Geometry.planned size config).depth)
      else .ok (.planned size config) := rfl
  have hmin : (Geometry.planned size config).minSize = config.minSize := rfl
  unfold InitError.rejection? InitError.checks Region.of
  rw [hplanned]
  by_cases hbase : base = 0
  · simp [hbase]
  by_cases hgranule : isPowerOfTwo config.minSize = true
  · by_cases hsmall : size < config.minSize
    · simp [hbase, hgranule, hsmall, bind, Except.bind]
    · by_cases hlarge : maxDepth < (Geometry.planned size config).depth
      · simp [hbase, hgranule, hsmall, hlarge, bind, Except.bind]
      · by_cases hal : base % config.minSize = 0
        · by_cases hfit : addressLimit ≤ base + ((Geometry.planned size config).totalMemory - 1) <;>
            simp [hbase, hgranule, hsmall, hlarge, hmin, hal, hfit, isNone_checkedAdd?_iff, bind,
              Except.bind, -Option.isNone_iff_eq_none]
        · simp [hbase, hgranule, hsmall, hlarge, hmin, hal, bind, Except.bind]
  · simp [hbase, hgranule, bind, Except.bind]

/-! ## 2. The requests -/

section Requests

variable {σ : Type} {source : Source σ}

/-- A meter that refuses nothing by itself answers as the source behind it does, and puts the answer
down. -/
theorem Source.supply_metered {r : Request} {m m' : Meter σ} {grant : Option Grant}
    (h : (metered (fun _ _ => false) source).supply m r = (grant, m')) :
    source.supply m.inner r = (grant, m'.inner) ∧
      m'.calls = m.calls ++ [(r, grant.map Grant.address)] := by
  obtain ⟨rfl, rfl⟩ := Prod.mk.inj h
  exact ⟨rfl, rfl⟩

variable {base size : Nat} {config : Config}

/-- The memory for the tree of a shape: a byte for each slot. -/
def Geometry.treeRequest (g : Geometry) : Request := ⟨2 ^ (g.depth + 1), 1⟩

/-- The memory for the leaf index: four bytes for each granule, at a multiple of four. -/
def Geometry.indexRequest (g : Geometry) : Request := ⟨4 * 2 ^ g.depth, 4⟩

namespace Allocator

/-- **Arguments that are rejected** cost nothing. -/
theorem create_of_rejected (s : σ) {e : InitError}
    (h : InitError.rejection? base size config = some e) :
    create source base size config s = (.error e, s) := by
  unfold create
  rw [Region.of_eq_rejection?, h]

variable {r : Region} {s s' : σ} {tree : Grant}

/-- **Arguments that are accepted** lead to a request for the tree.  If that is refused, it is the
only one; -/
theorem create_of_refused_tree (h : Region.of base size config = .ok r)
    (htree : source.supply s r.geometry.treeRequest = (none, s')) :
    create source base size config s =
      (.error (.backing .tree r.geometry.treeRequest.bytes), s') := by
  unfold create request
  simp only [h, show (⟨r.geometry.treeBytes, 1⟩ : Request) = r.geometry.treeRequest from rfl, htree]
  rfl

/-- if it is granted, a second one follows, for the leaf index.  Both pieces of memory are zeroed
before anything is read from them. -/
theorem create_of_granted_tree (h : Region.of base size config = .ok r)
    (htree : source.supply s r.geometry.treeRequest = (some tree, s')) :
    create source base size config s =
      match source.supply s' r.geometry.indexRequest with
      | (none, s'') => (.error (.backing .index r.geometry.indexRequest.bytes), s'')
      | (some _, s'') => (.ok (.fresh r, welcome r size), s'') := by
  unfold create request
  simp only [h, show (⟨r.geometry.treeBytes, 1⟩ : Request) = r.geometry.treeRequest from rfl, htree,
    show (⟨r.geometry.indexBytes, 4⟩ : Request) = r.geometry.indexRequest from rfl]
  rcases source.supply s' r.geometry.indexRequest with ⟨_ | index, s''⟩
  · rfl
  · have hblank : Metadata.ofGrants r.depth (tree.zeroed r.geometry.treeBytes)
        (index.zeroed r.geometry.indexBytes) = .blank r.depth := Metadata.ofGrants_zeroed _ _ _
    simp only [hblank]
    rfl

/-- **What was brought up** is a fresh allocator, whatever its memory held before. -/
theorem eq_fresh_of_create {a : Allocator} {log : List Record}
    (h : create source base size config s = (.ok (a, log), s')) :
    ∃ r, Region.of base size config = .ok r ∧ a = fresh r := by
  cases hof : Region.of base size config with
  | error e => simp [create, hof] at h
  | ok r =>
    rcases htree : source.supply s r.geometry.treeRequest with ⟨_ | tree, s₁⟩
    · rw [create_of_refused_tree hof htree] at h
      cases h
    · rw [create_of_granted_tree hof htree] at h
      rcases hindex : source.supply s₁ r.geometry.indexRequest with ⟨_ | index, s₂⟩
      · rw [hindex] at h
        cases h
      · rw [hindex] at h
        cases h
        exact ⟨r, rfl, rfl⟩

/-- **A meter** around the source makes no difference to what is brought up. -/
theorem create_metered (m : Source.Meter σ) :
    let metered := Source.metered (fun _ _ => false) source
    create source base size config m.inner =
      ((create metered base size config m).1, (create metered base size config m).2.inner) := by
  intro metered
  cases hof : Region.of base size config with
  | error e => simp [create, hof]
  | ok r =>
    rcases htree : metered.supply m r.geometry.treeRequest with ⟨_ | tree, m₁⟩
    · rw [create_of_refused_tree hof htree,
        create_of_refused_tree hof (Source.supply_metered htree).1]
    · rw [create_of_granted_tree hof htree,
        create_of_granted_tree hof (Source.supply_metered htree).1]
      rcases hindex : metered.supply m₁ r.geometry.indexRequest with ⟨_ | index, m₂⟩
      · rw [(Source.supply_metered hindex).1]
      · rw [(Source.supply_metered hindex).1]

end Allocator

end Requests

/-! ## 3. Pristine allocators -/

/-- Nothing was ever allocated: every byte of the tree is clear, the unused one included, every
entry and every counter is 0, and so it is reported. -/
structure Allocator.Pristine (a : Allocator) : Prop where
  bytes : ∀ i (h : i < 2 ^ (a.region.depth + 1)), a.store.tree.slots[i] = .clear
  entries : ∀ leaf, a.store.entry leaf = 0
  counts : ∀ order, a.store.count order = 0
  released : a.store.released = 0
  check : a.check = .ok ()
  usedMemory : a.usedMemory = 0

/-- **There is one** for each region. -/
theorem Allocator.Pristine.eq_fresh {a : Allocator} (h : a.Pristine) : a = fresh a.region := by
  obtain ⟨r, ⟨⟨slots⟩, index, live, released⟩⟩ := a
  have hslots : slots = Vector.replicate _ .clear := Vector.ext fun i hi => by
    rw [Vector.getElem_replicate]
    exact h.bytes i hi
  have hindex : index = Vector.replicate _ 0 := Vector.ext fun i hi => by
    rw [Vector.getElem_replicate]
    exact h.entries ⟨i, hi⟩
  have hlive : live = Vector.replicate _ 0 := Vector.ext fun i hi => by
    rw [Vector.getElem_replicate]
    exact h.counts ⟨i, hi⟩
  obtain rfl : released = 0 := h.released
  rw [hslots, hindex, hlive]
  rfl

theorem Metadata.liveAt_blank (d order : Nat) : (blank d).liveAt order = 0 := by
  simp only [liveAt, blank, Vector.getElem?_replicate]
  split <;> rfl

theorem Metadata.usedMemory_blank (d minSize maxOrder : Nat) :
    (blank d).usedMemory minSize maxOrder = 0 := by
  unfold usedMemory
  simp only [liveAt_blank, UInt64.zero_mul, UInt64.add_zero]
  generalize List.range (maxOrder + 1) = orders
  induction orders with
  | nil => rfl
  | cons _ _ ih => exact ih

/-- **A fresh allocator is pristine.** -/
theorem pristine_fresh (r : Region) : (Allocator.fresh r).Pristine where
  bytes _ _ := Vector.getElem_replicate _
  entries := Metadata.entry_blank
  counts := Metadata.count_blank
  released := rfl
  check := check_eq_ok_iff_regular.mpr (Metadata.atRest_blank r.depth _).regular
  usedMemory := Metadata.usedMemory_blank _ _ _

/-! ## 4. All or nothing -/

/-- **All or nothing.**  The first check of the arguments that fails is reported, and nothing is
asked for.  If none does, the tree is asked for, and then, if it was granted, the leaf index; the
first of the two that is refused is reported.  There is an allocator exactly if both were granted,
whatever the source, and whatever the memory held that it granted: a pristine one, and no different
from any other pristine one of that region. -/
theorem create_all_or_nothing {σ : Type} (source : Source σ) (base size : Nat) (config : Config)
    (s : σ) :
    let g := Geometry.planned size config
    let metered := Source.metered (fun _ _ => false) source
    let result := (Allocator.create metered base size config (.start s)).1
    let meter := (Allocator.create metered base size config (.start s)).2
    Allocator.create source base size config s = (result, meter.inner) ∧
    (∀ e, InitError.rejection? base size config = some e →
      result = .error e ∧ meter = .start s) ∧
    (InitError.rejection? base size config = none →
      (result = .error (.backing .tree g.treeRequest.bytes) ∧
        meter.calls = [(g.treeRequest, none)]) ∨
      ∃ tree,
        (result = .error (.backing .index g.indexRequest.bytes) ∧
          meter.calls = [(g.treeRequest, some tree), (g.indexRequest, none)]) ∨
        ∃ index a log, result = .ok (a, log) ∧
          meter.calls = [(g.treeRequest, some tree), (g.indexRequest, some index)] ∧
          a.region = ⟨base, g⟩ ∧ a.Pristine ∧
          ∀ b : Allocator, b.region = a.region → b.Pristine → b = a) := by
  intro g metered
  refine ⟨Allocator.create_metered (.start s), ?_⟩
  cases hrejection : InitError.rejection? base size config with
  | some e =>
    have hmetered : Allocator.create metered base size config (.start s) = (.error e, .start s) :=
      Allocator.create_of_rejected _ hrejection
    rw [hmetered]
    exact ⟨fun e' he => ⟨by rw [Option.some.inj he], rfl⟩, nofun⟩
  | none =>
    refine ⟨nofun, fun _ => ?_⟩
    have hof : Region.of base size config = .ok ⟨base, g⟩ := by
      rw [Region.of_eq_rejection?, hrejection]
    rcases htree : metered.supply (.start s) g.treeRequest with ⟨_ | tree, m⟩
    · rw [Allocator.create_of_refused_tree hof htree]
      exact .inl ⟨rfl, (Source.supply_metered htree).2⟩
    · have hcalls : m.calls = [(g.treeRequest, some tree.address)] :=
        (Source.supply_metered htree).2
      rw [Allocator.create_of_granted_tree hof htree]
      rcases hindex : metered.supply m g.indexRequest with ⟨_ | index, m'⟩
      · have hcalls' := (Source.supply_metered hindex).2
        rw [hcalls] at hcalls'
        exact .inr ⟨tree.address, .inl ⟨rfl, hcalls'⟩⟩
      · have hcalls' := (Source.supply_metered hindex).2
        rw [hcalls] at hcalls'
        have hunique : ∀ b : Allocator, b.region = ⟨base, g⟩ → b.Pristine → b = .fresh ⟨base, g⟩ :=
          fun b hregion hb => by rw [hb.eq_fresh, hregion]
        exact .inr ⟨tree.address, .inr ⟨index.address, _, _, rfl, hcalls', rfl, pristine_fresh _,
          hunique⟩⟩

end BuddyTree
