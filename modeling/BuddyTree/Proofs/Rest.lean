/-
# Metadata at rest

Sound metadata is determined by what the index records and by its announcements: nothing else is
left for a flag to say.  It is *at rest* if no release is announced anywhere.

A call that nothing interferes with goes from rest to rest.  Its releases announce nothing for good
where nothing was announced before, and a claim that is refused undoes its marks completely, so the
metadata is again what it was.  For that it need not be at rest: it is enough that no announcement
stands below a recorded block.

The main facts: `Sound.eq` (the index and the announcements decide), `quiet_release` (a release
leaves no announcement), `Sound.claim_some` (a refused claim changes nothing), and `Sound.search`
and `AtRest.search` (a search finds the first node of its level that can be had).
-/
import BuddyTree.Proofs.Calls
import BuddyTree.Proofs.Scanning
import BuddyTree.Proofs.Unwinding

namespace BuddyTree

variable {d : Nat}

/-! ## 1. Nothing is announced -/

/-- No release is announced anywhere. -/
def Tree.Quiet (t : Tree d) : Prop := ∀ n s, (t.get n).isCoalescing s = false

/-- A tree is the bytes of its nodes and of the unused slot. -/
theorem Tree.ext_get {t t' : Tree d} (h : ∀ n, t.get n = t'.get n)
    (hspare : t.slots[0]? = t'.slots[0]?) : t = t' := by
  obtain ⟨slots⟩ := t
  obtain ⟨slots'⟩ := t'
  congr 1
  refine Vector.ext fun i hi => ?_
  by_cases hz : i = 0
  · subst hz
    rw [Vector.getElem?_eq_getElem hi, Vector.getElem?_eq_getElem hi] at hspare
    exact Option.some.inj hspare
  · exact h ⟨i, Nat.pos_of_ne_zero hz, hi⟩

/-- **Fitting trees are determined** by their blocks, by what is below, and by their
announcements. -/
theorem Tree.Fits.ext {t t' : Tree d} {top : Nat} {blocks : Node d → Prop}
    {below : Node d → Side → Prop} (h : t.Fits top blocks below) (h' : t'.Fits top blocks below)
    (hc : ∀ n s, (t.get n).isCoalescing s = (t'.get n).isCoalescing s) : t = t' := by
  refine Tree.ext_get (fun n => ?_) (h.spare.trans h'.spare.symm)
  by_cases hb : blocks n
  · rw [h.busy hb, h'.busy hb]
  · by_cases hl : top ≤ n.level
    · refine Status.Plain.ext (h.plain n) (h'.plain n) ?_
      rintro (_ | c | c)
      · rw [h.vacant hb, h'.vacant hb]
      · have hocc := h.occupied hb hl c
        rw [hc n c] at hocc
        exact Bool.eq_iff_iff.mpr (hocc.trans (h'.occupied hb hl c).symm)
      · exact hc n c
    · rw [h.above (n := n) (by omega), h'.above (n := n) (by omega)]

namespace Metadata

/-- The metadata is sound, and no release is announced anywhere. -/
structure AtRest (m : Metadata d) (top : Nat) : Prop extends m.Sound top where
  quiet : m.tree.Quiet

/-- The index and the counters are the same. -/
structure SameBooks (m m' : Metadata d) : Prop where
  index : m'.index = m.index
  live : m'.live = m.live
  released : m'.released = m.released

variable {m m' : Metadata d} {top : Nat}

theorem SameBooks.refl (m : Metadata d) : SameBooks m m :=
  ⟨rfl, rfl, rfl⟩

theorem SameBooks.symm (h : SameBooks m m') : SameBooks m' m :=
  ⟨h.index.symm, h.live.symm, h.released.symm⟩

theorem SameBooks.trans {m'' : Metadata d} (h : SameBooks m m') (h' : SameBooks m' m'') :
    SameBooks m m'' :=
  ⟨h'.index.trans h.index, h'.live.trans h.live, h'.released.trans h.released⟩

theorem SameBooks.mapTree (h : SameBooks m m') (f g : Tree d → Tree d) :
    SameBooks (m.mapTree f) (m'.mapTree g) :=
  ⟨h.index, h.live, h.released⟩

/-- Entering a block depends on the books only. -/
theorem SameBooks.enter (h : SameBooks m m') (n : Node d) :
    SameBooks (m.enter n) (m'.enter n) where
  index :=
    congrArg (fun index : Vector UInt32 (2 ^ d) => index.set n.firstLeaf (.ofNat n.id)) h.index
  live := congrArg (fun live : Vector UInt64 (d + 1) =>
    live.set n.orderIndex (live[n.orderIndex] + 1)) h.live
  released := h.released

theorem SameBooks.withdraw (h : SameBooks m m') (leaf : Fin (2 ^ d)) :
    SameBooks (m.withdraw leaf) (m'.withdraw leaf) where
  index := congrArg (fun index : Vector UInt32 (2 ^ d) => index.set leaf 0) h.index
  live := h.live
  released := h.released

theorem SameBooks.discharge (h : SameBooks m m') (n : Node d) :
    SameBooks (m.discharge n) (m'.discharge n) where
  index := h.index
  live := congrArg (fun live : Vector UInt64 (d + 1) =>
    live.set n.orderIndex (live[n.orderIndex] - 1)) h.live
  released := congrArg (· + 1) h.released

theorem SameBooks.entry (h : SameBooks m m') : m'.entry = m.entry := by
  funext leaf
  rw [Metadata.entry, Metadata.entry, h.index]

theorem SameBooks.count (h : SameBooks m m') : m'.count = m.count := by
  funext o
  rw [Metadata.count, Metadata.count, h.live]

theorem SameBooks.records (h : SameBooks m m') : m'.Records = m.Records := by
  funext n
  rw [Records, Records, h.entry]

/-- **The index and the announcements decide.** -/
theorem Sound.eq (h : m.Sound top) (h' : m'.Sound top) (hb : SameBooks m m')
    (hc : ∀ n s, (m'.tree.get n).isCoalescing s = (m.tree.get n).isCoalescing s) : m' = m := by
  have hfits := h'.fits
  rw [hb.records] at hfits
  have htree := hfits.ext h.fits hc
  obtain ⟨tree, index, live, released⟩ := m
  obtain ⟨tree', index', live', released'⟩ := m'
  obtain rfl : index' = index := hb.index
  obtain rfl : live' = live := hb.live
  obtain rfl : released' = released := hb.released
  obtain rfl : tree' = tree := htree
  rfl

/-- **At rest the index decides.** -/
theorem AtRest.eq (h : m.AtRest top) (h' : m'.AtRest top) (hb : SameBooks m m') : m' = m :=
  h.toSound.eq h'.toSound hb fun n s => (h'.quiet n s).trans (h.quiet n s).symm

theorem atRest_blank (d top : Nat) : (blank d).AtRest top :=
  ⟨sound_blank d top, fun n s => by simp [blank]⟩

end Metadata

/-! ## 2. What is announced -/

/-- A release is announced exactly where `F` says. -/
def Tree.Announces (t : Tree d) (F : Node d → Side → Prop) : Prop :=
  ∀ a s, (t.get a).isCoalescing s = true ↔ F a s

/-- What counts up to a level counts in the parent, or above it. -/
theorem held_iff_parent? {x p a : Node d} {s : Side} {bound : Nat} (h : x.parent? = some p) :
    Held x bound a s ↔ (a = p ∧ s = x.side ∧ bound ≤ p.level) ∨ Held p bound a s := by
  rw [Held, Node.inHalf_iff_parent? h]
  constructor
  · rintro ⟨⟨rfl, rfl⟩ | hin, hl⟩
    · exact .inl ⟨rfl, rfl, hl⟩
    · exact .inr ⟨hin, hl⟩
  · rintro (⟨rfl, rfl, hl⟩ | ⟨hin, hl⟩)
    · exact ⟨.inl ⟨rfl, rfl⟩, hl⟩
    · exact ⟨.inr hin, hl⟩

namespace Tree.Announces

variable {t : Tree d} {F G : Node d → Side → Prop}

theorem congr (h : t.Announces F) (he : ∀ a s, F a s ↔ G a s) : t.Announces G :=
  fun a s => (h a s).trans (he a s)

theorem set (h : t.Announces F) {n : Node d} {v : Status}
    (hn : ∀ s, v.isCoalescing s = true ↔ G n s) (hne : ∀ a s, a ≠ n → (F a s ↔ G a s)) :
    (t.set n v).Announces G := by
  intro a s
  rw [get_set]
  split
  · next he => exact he ▸ hn s
  · next he => exact (h a s).trans (hne a s fun h => he h.symm)

/-- **Marks withdraw** what was announced on their way. -/
theorem markPath {x : Node d} {k : Nat} (hk : k ≤ x.level) (h : t.Announces F) :
    (∀ t', t.markPath (x.climb k) = (none, t') →
      t'.Announces fun a s => F a s ∧ ¬ Held x (x.level - k) a s) ∧
    (∀ o t', t.markPath (x.climb k) = (some o, t') → o.level < x.level ∧
      t'.Announces fun a s => F a s ∧ ¬ Held x (o.level + 1) a s) := by
  induction k generalizing t x F with
  | zero =>
    refine ⟨?_, ?_⟩
    · rintro t' ⟨⟩
      exact h.congr fun a s => (and_iff_left (not_held_of_level_le (Nat.le_refl _) a s)).symm
    · rintro o t' ⟨⟩
  | succ k ih =>
    cases hp : x.parent? with
    | none =>
      have := Node.parent?_eq_none hp
      omega
    | some p =>
      have hlev := Node.level_parent? hp
      rw [Node.climb_succ hp]
      unfold Tree.markPath
      dsimp only
      split
      · refine ⟨?_, ?_⟩
        · rintro t' ⟨⟩
        · rintro o t' ⟨⟩
          have hle : x.level ≤ p.level + 1 := by omega
          exact ⟨by omega, h.congr fun a s => (and_iff_left (not_held_of_level_le hle a s)).symm⟩
      · have hmark : (t.set p (((t.get p).withdraw x.side).mark x.side)).Announces
            fun a s => F a s ∧ ¬ (a = p ∧ s = x.side) := by
          refine h.set (fun s => ?_) fun a s ha => (and_iff_left fun he => ha he.1).symm
          simp [h p s]
        obtain ⟨hnone, hsome⟩ := ih (x := p) (by omega) hmark
        have hstep : ∀ {bound a s}, bound ≤ p.level →
            ((F a s ∧ ¬ (a = p ∧ s = x.side)) ∧ ¬ Held p bound a s ↔
              F a s ∧ ¬ Held x bound a s) := by
          intro bound a s hb
          rw [held_iff_parent? hp, not_or, and_assoc, and_iff_left hb]
        refine ⟨fun t' he => ?_, fun o t' he => ?_⟩
        · rw [← hlev, Nat.add_sub_add_right]
          exact (hnone t' he).congr fun a s => hstep (Nat.sub_le _ _)
        · obtain ⟨ho, hann⟩ := hsome o t' he
          exact ⟨by omega, hann.congr fun a s => hstep ho⟩

end Tree.Announces

theorem Tree.quiet_iff {t : Tree d} : t.Quiet ↔ t.Announces fun _ _ => False := by
  simp [Quiet, Announces]

open Metadata in
/-- A claim's marks withdraw what was announced on their way. -/
theorem announces_marked {m : Metadata d} {top : Nat} {x : Node d} {F : Node d → Side → Prop}
    (hclear : m.tree.get x = .clear)
    (hx : top ≤ x.level) (hm : m.tree.Announces F) :
    ((marked x top m.tree).1 = none →
      (marked x top m.tree).2.Announces fun a s => F a s ∧ ¬ Held x top a s) ∧
    (∀ f, (marked x top m.tree).1 = some f →
      (marked x top m.tree).2.Announces fun a s => F a s ∧ ¬ Held x (f.level + 1) a s) := by
  have hbusy : (m.tree.set x .busy).Announces F := by
    refine hm.set (fun s => ?_) fun _ _ _ => Iff.rfl
    rw [← hm x s, hclear, Status.isCoalescing_busy, Status.isCoalescing_clear]
  obtain ⟨hnone, hsome⟩ := hbusy.markPath (x := x) (k := x.level - top) (Nat.sub_le _ _)
  rw [Nat.sub_sub_self hx] at hnone
  exact ⟨fun h => hnone _ (Prod.ext h rfl), fun f h => (hsome f _ (Prod.ext h rfl)).2⟩

/-! ## 3. A release leaves no announcement -/

section Release

variable {ε : Type} {obs : Observer d ε}

/-- **A release announces nothing for good.**  On a climb on which nothing was announced nothing is
announced afterwards, and elsewhere a release changes no announcement. -/
theorem isCoalescing_release (hobs : obs.LetsPass) {n : Node d} {top bound : Nat} {w : World d ε}
    (h : w.store.Holding top n bound)
    (hclimb : ∀ r ∈ n.climb (n.level - bound), ∀ s,
      (w.store.tree.get r.node).isCoalescing s = false) (a : Node d) (s : Side) :
    ((release obs n bound w).2.store.tree.get a).isCoalescing s =
      (w.store.tree.get a).isCoalescing s := by
  have hbusy := h.fits.busy (.inr (rfl : n = n))
  have hle := h.bound_le
  have hon : ∀ q e, Held n bound q e → ∀ c, (w.store.tree.get q).isCoalescing c = false := by
    rintro q e ⟨hq, hl⟩
    exact hclimb ⟨q, e⟩ (Node.mem_climb_iff.mpr ⟨hq, show n.level ≤ q.level + _ by omega⟩)
  rw [(release_alone hobs hle (by rw [hbusy]; exact Status.isFree_busy)).2,
    Metadata.tree_mapTree, Bool.eq_iff_iff, Tree.isCoalescing_retire_of_busy hbusy hle]
  constructor
  · rintro (⟨hc, -⟩ | ⟨hheld, hnot, hann⟩)
    · exact hc
    · -- an occupied half would have to be announced, but nothing on the climb is
      refine absurd (fun q e hq hlq => (Bool.not_eq_true _).mp fun hocc => ?_) hnot
      have hl := hheld.2
      have hc := hann q e hq hlq hocc
      rw [hon q e ⟨hq, by omega⟩] at hc
      cases hc
  · refine fun hc => .inl ⟨hc, fun hpath => ?_⟩
    rw [hon a s hpath.1] at hc
    cases hc

/-- So it goes on being true that nothing is announced. -/
theorem quiet_release (hobs : obs.LetsPass) {n : Node d} {top bound : Nat} {w : World d ε}
    (h : w.store.Holding top n bound) (hq : w.store.tree.Quiet) :
    (release obs n bound w).2.store.tree.Quiet := by
  intro a s
  rw [isCoalescing_release hobs h fun r _ => hq r.node]
  exact hq a s

/-- A change of the tree does not touch the books, -/
theorem books_mapTree (f : Tree d → Tree d) (w : World d ε) :
    Metadata.SameBooks w.store (w.mapStore (.mapTree f)).store :=
  ⟨rfl, rfl, rfl⟩

/-- and so the climbs of a release do not. -/
theorem books_merge (hobs : obs.LetsPass) (path : List (Node.Rung d)) (w : World d ε) :
    Metadata.SameBooks w.store (merge obs path w).store := by
  induction path generalizing w with
  | nil => exact .refl _
  | cons r rest ih =>
    have hmerged : Metadata.SameBooks w.store (w.merged r).store := books_mapTree _ _
    rw [merge_cons]
    split
    · split
      · exact hmerged
      · have hrest := ih (obs.react (.coalesced r.node.id) (w.merged r))
        rw [hobs] at hrest
        exact hmerged.trans hrest
    · exact .refl _

theorem books_release (hobs : obs.LetsPass) (n : Node d) (bound : Nat) (w : World d ε) :
    Metadata.SameBooks w.store (release obs n bound w).2.store := by
  unfold release
  split
  · exact .refl _
  · exact (books_mapTree (fun t => (t.announce (n.climb (n.level - bound))).set n .clear) w).trans
      (books_merge hobs _ _)

end Release

/-! ## 4. A refused claim leaves no mark -/

/-- Marks announce nothing, -/
theorem Tree.isCoalescing_of_markPath {t : Tree d} {path : List (Node.Rung d)} {a : Node d}
    {s : Side} (h : ((t.markPath path).2.get a).isCoalescing s = true) :
    (t.get a).isCoalescing s = true := by
  induction path generalizing t with
  | nil => exact h
  | cons r rest ih =>
    unfold Tree.markPath at h
    dsimp only at h
    split at h
    · exact h
    · have hset := ih h
      rw [Tree.get_set] at hset
      split at hset
      · next he =>
        simp only [Status.isCoalescing_mark, Status.isCoalescing_withdraw, Bool.and_eq_true,
          he] at hset
        exact hset.1
      · exact hset

/-- and so a claim announces nothing before it is refused. -/
theorem Metadata.isCoalescing_of_marked {t : Tree d} {n a : Node d} {top : Nat} {s : Side}
    (h : ((Metadata.marked n top t).2.get a).isCoalescing s = true) :
    (t.get a).isCoalescing s = true := by
  have hset := Tree.isCoalescing_of_markPath h
  rw [Tree.get_set] at hset
  split at hset
  · rw [Status.isCoalescing_busy] at hset
    cases hset
  · exact hset

theorem keeps_silent (P : World d Unit → Prop) : (silent d).Keeps P :=
  fun _ _ _ h => h

theorem letsPass_silent : (silent d).LetsPass :=
  fun _ _ => rfl

namespace Metadata

variable {m : Metadata d} {top : Nat} {n : Node d}

/-- The node has no granule in common with a recorded block. -/
def Vacant (m : Metadata d) (n : Node d) : Prop := ∀ b, m.Records b → n.block.Apart b.block

theorem not_vacant_of_within {b : Node d} (hb : m.Records b) (h : n.Within b ∨ b.Within n) :
    ¬ m.Vacant n := by
  intro hv
  obtain ⟨h1, h2⟩ := Node.block_apart_iff.mp (hv b hb)
  exact h.elim h1 h2

/-- A node that is held for good was vacant. -/
theorem Holding.vacant (h : m.Holding top n top) : m.Vacant n := by
  refine fun b hb => Node.block_apart_iff.mpr ⟨fun hnb => ?_, h.alone b hb⟩
  rcases Node.within_iff_eq_or_inHalf.mp hnb with rfl | ⟨s, hin⟩
  · exact h.not_records hb
  · exact h.free b s ⟨hin, h.level hb⟩ hb

/-- The node can be had: it is vacant, and no announcement stands in its byte. -/
structure Available (m : Metadata d) (n : Node d) : Prop where
  vacant : m.Vacant n
  clear : m.tree.get n = .clear

/-- A free node has a clear byte unless something is announced there. -/
theorem Sound.clear_of_isFree (h : m.Sound top) (hfree : (m.tree.get n).isFree = true)
    (hquiet : ∀ c, (m.tree.get n).isCoalescing c = false) : m.tree.get n = .clear := by
  obtain ⟨hb, ho⟩ := (Status.isFree_iff _).mp hfree
  refine (h.fits.plain n).ext Status.plain_clear ?_
  rintro (_ | c | c)
  · rw [hb, Status.has_clear]
  · exact (ho c).trans (Status.has_clear _).symm
  · exact (hquiet c).trans (Status.has_clear _).symm

/-- A vacant node can be had unless something is announced there. -/
theorem Sound.available_iff (h : m.Sound top) (hn : top ≤ n.level) :
    m.Available n ↔ m.Vacant n ∧ ∀ c, (m.tree.get n).isCoalescing c = false := by
  refine ⟨fun ha => ⟨ha.vacant, fun c => by simp [ha.clear]⟩, fun ⟨hv, hquiet⟩ => ⟨hv, ?_⟩⟩
  refine h.clear_of_isFree ((Bool.not_eq_false _).mp fun hfree => ?_) hquiet
  rcases (h.isFree_eq_false_iff hn).mp hfree with ⟨b, hb, hin⟩ | ⟨c, hc⟩
  · exact not_vacant_of_within hb (.inr hin) hv
  · rw [hquiet c] at hc
    cases hc

/-- No announcement stands below a recorded block. -/
def CoversNone (m : Metadata d) : Prop :=
  ∀ {o a c} s, m.Records o → a.InHalf o c → (m.tree.get a).isCoalescing s = false

/-- **A refused claim changes nothing.**  What refuses it is a recorded block that the node lies
within. -/
theorem Sound.claim_some (h : m.Sound top) (hcovers : m.CoversNone) (hn : top ≤ n.level)
    (hclear : m.tree.get n = .clear) {f : Node d} {w' : World d Unit}
    (hc : claim (silent d) n top ⟨m, ()⟩ = (some f, w')) :
    w'.store = m ∧ m.Records f ∧ n.Within f := by
  rw [claim_eq (silent d) (w := ⟨m, ()⟩) hclear] at hc
  cases hm : (Metadata.marked n top m.tree).1 with
  | none => simp [hm] at hc
  | some o =>
    simp only [hm] at hc
    obtain ⟨hf, rfl⟩ := Prod.mk.inj hc
    obtain rfl : o = f := Option.some.inj hf
    obtain ⟨hrec, ⟨s, hin⟩, hheld⟩ := (h.marked hn hclear).2 o hm
    have hflags := (announces_marked (F := fun a c => (m.tree.get a).isCoalescing c = true)
      hclear hn fun _ _ => Iff.rfl).2 o hm
    -- the marks are below the block, where nothing was announced
    have hbelow : ∀ a c, Held n (o.level + 1) a c → ∀ e, (m.tree.get a).isCoalescing e = false := by
      intro a c ha e
      obtain ⟨t, ht⟩ := (hin.within.total ha.1.within (by have := ha.2; omega)).exists_inHalf
        (by have := ha.2; omega)
      exact hcovers e hrec ht
    refine ⟨h.eq ?_ ?_ fun a c => ?_, hrec, hin.within⟩
    · exact (steady_release (E := fun _ => True) (w := ⟨m.withMarks n top, ()⟩) (keeps_silent _)
        hheld trivial).2.1
    · exact (books_mapTree (fun t => (Metadata.marked n top t).2) ⟨m, ()⟩).trans
        (books_release letsPass_silent n (o.level + 1) ⟨m.withMarks n top, ()⟩)
    · refine (isCoalescing_release letsPass_silent (w := ⟨m.withMarks n top, ()⟩) hheld
        (fun r hr e => ?_) a c).trans ?_
      · obtain ⟨hr1, hr2⟩ := Node.mem_climb_iff.mp hr
        have hle := hheld.bound_le
        refine (Bool.not_eq_true _).mp fun he => ?_
        have := ((hflags r.node e).mp he).1
        rw [hbelow r.node r.child ⟨hr1, by omega⟩ e] at this
        cases this
      · refine Bool.eq_iff_iff.mpr ((hflags a c).trans (and_iff_left_of_imp fun hac ha => ?_))
        rw [hbelow a c ha c] at hac
        cases hac

/-- **A claim of a node that can be had** is refused by nobody. -/
theorem Sound.marked_of_available (h : m.Sound top) (hn : top ≤ n.level) (ha : m.Available n) :
    (Metadata.marked n top m.tree).1 = none := by
  cases hm : (Metadata.marked n top m.tree).1 with
  | none => rfl
  | some o =>
    obtain ⟨hrec, ⟨s, hin⟩, -⟩ := (h.marked hn ha.clear).2 o hm
    exact absurd ha.vacant (not_vacant_of_within hrec (.inl hin.within))

theorem Sound.holding_withMarks (h : m.Sound top) (hn : top ≤ n.level) (ha : m.Available n) :
    (m.withMarks n top).Holding top n top :=
  (h.marked hn ha.clear).1 (h.marked_of_available hn ha)

/-- What claims do where no announcement is covered: they change nothing, or mark a node that can
be had. -/
theorem Sound.scans (h : m.Sound top) (hcovers : m.CoversNone) {l : Nat} (hl : top ≤ l) :
    Scans top l m.Available (fun m' => m' = m) fun n m' => m' = m.withMarks n top where
  busy := by
    rintro m n rfl - hfree ha
    rw [ha.clear] at hfree
    cases hfree
  taken := by
    rintro m n w rfl hn hc
    by_cases hclear : m.tree.get n = .clear
    · rw [claim_eq (silent d) (w := ⟨m, ()⟩) hclear] at hc
      cases hm : (Metadata.marked n top m.tree).1 with
      | some o => simp [hm] at hc
      | none =>
        simp only [hm] at hc
        obtain rfl := (Prod.mk.inj hc).2
        exact ⟨⟨((h.marked (by omega) hclear).1 hm).vacant, hclear⟩, rfl⟩
    · rw [claim, if_neg hclear] at hc
      cases (Prod.mk.inj hc).1
  refused := by
    rintro m n f w rfl hn hfree hc
    by_cases hclear : m.tree.get n = .clear
    · obtain ⟨hsame, hrec, -⟩ := h.claim_some hcovers (by omega) hclear hc
      exact ⟨hsame, fun x _ hx ha => not_vacant_of_within hrec (.inl hx) ha.vacant⟩
    · rw [claim, if_neg hclear] at hc
      obtain ⟨hf, rfl⟩ := Prod.mk.inj hc
      obtain rfl : n = f := Option.some.inj hf
      refine ⟨rfl, fun x hx hin ha => hclear ?_⟩
      obtain rfl : x = n := Node.Within.eq_of_level (Node.within_self x) hin (by omega)
      exact ha.clear

/-- **The search** finds the first node of its level that can be had and marks it, and otherwise
changes nothing. -/
theorem Sound.search (h : m.Sound top) (hcovers : m.CoversNone) {order : Nat}
    (ho : top ≤ d - order) :
    ∃ found, FirstIn m.Available (2 ^ (d - order)) (2 ^ (d - order + 1)) found ∧
      BuddyTree.search (silent d) top order ⟨m, ()⟩ =
        (found, ⟨found.elim m fun n => m.withMarks n top, ()⟩) := by
  have hend : Ended _ _ (BuddyTree.search (silent d) top order ⟨m, ()⟩) :=
    (h.scans hcovers ho).search rfl
  generalize BuddyTree.search (silent d) top order ⟨m, ()⟩ = result at hend ⊢
  obtain ⟨_ | n, store, env⟩ := result
  · exact ⟨none, hend.2, by rw [show store = m from hend.1]; rfl⟩
  · exact ⟨some n, hend.2, by rw [show store = m.withMarks n top from hend.1]; rfl⟩

end Metadata

/-! ## 5. At rest -/

namespace Metadata

variable {m : Metadata d} {top : Nat} {n : Node d}

/-- At rest a free node has a clear byte. -/
theorem AtRest.clear_of_isFree (h : m.AtRest top) (hfree : (m.tree.get n).isFree = true) :
    m.tree.get n = .clear :=
  h.toSound.clear_of_isFree hfree (h.quiet n)

theorem AtRest.coversNone (h : m.AtRest top) : m.CoversNone :=
  fun s _ _ => h.quiet _ s

/-- At rest every vacant node can be had. -/
theorem AtRest.available_iff (h : m.AtRest top) (hn : top ≤ n.level) :
    m.Available n ↔ m.Vacant n := by
  rw [h.toSound.available_iff hn, and_iff_left (h.quiet n)]

/-- A release goes to rest. -/
theorem AtRest.release {bound : Nat} (h : m.Holding top n bound) (hq : m.tree.Quiet) :
    (release (silent d) n bound ⟨m, ()⟩).1 = true ∧
      (release (silent d) n bound ⟨m, ()⟩).2.store.AtRest top := by
  obtain ⟨htrue, hsound, -⟩ := steady_release (E := fun _ => True) (w := ⟨m, ()⟩)
    (keeps_silent _) h trivial
  exact ⟨htrue, hsound, quiet_release letsPass_silent (w := ⟨m, ()⟩) h hq⟩

theorem quiet_marked (h : m.tree.Quiet) : (marked n top m.tree).2.Quiet := by
  refine fun a s => (Bool.not_eq_true _).mp fun hc => ?_
  have := isCoalescing_of_marked hc
  rw [h a s] at this
  cases this

end Metadata

/-- What a pass over the nodes from number `i` on, below `stop`, finds: the first vacant one,
which it holds, or none if there is none. -/
def FindsFirst (m : Metadata d) (top i stop : Nat) : Option (Node d) × World d Unit → Prop
  | (none, w) => w.store = m ∧ ∀ x : Node d, i ≤ x.id → x.id < stop → ¬ m.Vacant x
  | (some n, w) => (w.store.Holding top n top ∧ w.store.tree.Quiet ∧ m.SameBooks w.store) ∧
    i ≤ n.id ∧ n.id < stop ∧ m.Vacant n ∧ ∀ x : Node d, i ≤ x.id → x.id < n.id → ¬ m.Vacant x

/-- **The search.**  It finds the first vacant node of its level, and nothing only if the level
has none. -/
theorem Metadata.AtRest.search {m : Metadata d} {top order : Nat} (h : m.AtRest top)
    (ho : top ≤ d - order) :
    FindsFirst m top (2 ^ (d - order)) (2 ^ (d - order + 1))
      (search (silent d) top order ⟨m, ()⟩) := by
  have hlevel : ∀ x : Node d, 2 ^ (d - order) ≤ x.id → x.id < 2 ^ (d - order + 1) →
      top ≤ x.level := by
    intro x hx hs
    rwa [Node.level, (NodeId.level_eq_iff x.pos).mpr ⟨hx, hs⟩]
  obtain ⟨found, hfirst, hsearch⟩ := h.toSound.search h.coversNone ho
  have hvacant := hfirst.congr fun x hx hs => h.available_iff (hlevel x hx hs)
  rw [hsearch]
  cases found with
  | none => exact ⟨rfl, hvacant⟩
  | some n =>
    have hn := hlevel n hfirst.1 hfirst.2.1
    exact ⟨⟨h.toSound.holding_withMarks hn hfirst.2.2.1, quiet_marked h.quiet, ⟨rfl, rfl, rfl⟩⟩,
      hvacant⟩

end BuddyTree
