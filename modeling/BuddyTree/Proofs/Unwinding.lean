/-
# What a release does when nobody interferes

A release climbs the same path twice, and the two climbs stop by different tests: the first one
looks at a byte before it announces there, the second one after it has merged there.  If nobody
comes in between, both are one recursion along the path, `Tree.unwind`, and what it does to each
byte can be said exactly: up to the first ancestor whose other half is occupied both flags of the
path are cleared; above that one, as far as the first climb got, a release is announced; and
nothing else changes.

None of this depends on what the bytes were before.

The main facts: `release_alone` (such a release retires its node), `get_unwind` (what a climb does
to every byte), and `isOccupied_retire` and `isCoalescing_retire` (what is occupied and what is
announced afterwards).
-/
import BuddyTree.Proofs.Occupancy
import BuddyTree.Proofs.Rules

namespace BuddyTree

variable {d : Nat}

/-! ## 1. Two climbs as one -/

/-- Announcing and merging along a climb, as one recursion.  It merges up to the first ancestor
whose other half is occupied.  The first climb has passed that ancestor only if its other half is
on the way to merge too, and what it has announced above is not taken back. -/
def Tree.unwind (t : Tree d) : List (Node.Rung d) → Tree d
  | [] => t
  | r :: rest =>
    let s := t.get r.node
    let t := t.set r.node (s.unmark r.child)
    if s.isOccupied r.child.other then
      if s.isCoalescing r.child.other then t.announce rest else t
    else t.unwind rest

/-- Clear a node, and unwind the climb from it to level `bound`. -/
def Tree.retire (t : Tree d) (n : Node d) (bound : Nat) : Tree d :=
  (t.set n .clear).unwind (n.climb (n.level - bound))

/-- To withdraw an announcement together with its side is to clear the side. -/
theorem Status.unmark_announce (s : Status) (c : Side) : (s.announce c).unmark c = s.unmark c := by
  refine ext_has (fun f => ?_) fun i hi => ?_
  · by_cases hf : f = .coalescing c <;> simp [hf]
  · rw [unused_unmark _ _ hi, announce, unused_insert _ _ hi, unused_unmark _ _ hi]

/-- A climb does not come back to where it started. -/
theorem Node.ne_of_mem_climb {x : Node d} {k : Nat} {r : Node.Rung d} (h : r ∈ x.climb k) :
    r.node ≠ x := by
  intro he
  have := (mem_climb_iff.mp h).1
  rw [he] at this
  exact not_inHalf_self _ _ this

namespace Tree

variable {t : Tree d}

theorem set_set (n : Node d) (u v : Status) : (t.set n u).set n v = t.set n v := by
  simp only [set, Vector.set_set]

theorem set_comm {m n : Node d} (h : m ≠ n) (u v : Status) :
    (t.set m u).set n v = (t.set n v).set m u := by
  have hid : m.id ≠ n.id := fun he => h (Node.ext he)
  simp only [set, Vector.set_comm _ _ hid]

theorem get_announce_of_not_mem {path : List (Node.Rung d)} {a : Node d}
    (h : ∀ r ∈ path, r.node ≠ a) : (t.announce path).get a = t.get a := by
  induction path generalizing t with
  | nil => rfl
  | cons r rest ih =>
    have hr : r.node ≠ a := h r List.mem_cons_self
    unfold announce
    dsimp only
    split
    · exact get_set_ne _ hr _
    · rw [ih fun s hs => h s (List.mem_cons_of_mem r hs), get_set_ne _ hr]

/-- The first climb leaves its mark on the first ancestor in either case. -/
theorem get_announce_head {r : Node.Rung d} {rest : List (Node.Rung d)}
    (h : ∀ s ∈ rest, s.node ≠ r.node) :
    (t.announce (r :: rest)).get r.node = (t.get r.node).announce r.child := by
  unfold announce
  dsimp only
  split
  · exact get_set_self _ _ _
  · rw [get_announce_of_not_mem h, get_set_self]

/-- What happens off the climb makes no difference to the first climb. -/
theorem announce_set {path : List (Node.Rung d)} {n : Node d} (h : ∀ r ∈ path, r.node ≠ n)
    (v : Status) : (t.set n v).announce path = (t.announce path).set n v := by
  induction path generalizing t with
  | nil => rfl
  | cons r rest ih =>
    have hr : r.node ≠ n := h r List.mem_cons_self
    unfold announce
    dsimp only
    rw [get_set_ne _ hr.symm, set_comm hr.symm]
    split
    · rfl
    · exact ih fun s hs => h s (List.mem_cons_of_mem r hs)

end Tree

/-- The tree that is there already makes no difference. -/
theorem Metadata.mapTree_eq_self {m : Metadata d} {t : Tree d} (h : m.tree = t) :
    m.mapTree (fun _ => t) = m := by
  rw [← h]
  rfl

/-- Merges are reported in vain. -/
def Observer.LetsPass {ε : Type} (obs : Observer d ε) : Prop :=
  ∀ n w, (obs.react (.coalesced n) w).store = w.store

section Release

variable {ε : Type} {obs : Observer d ε}

/-- What the first climb leaves at the parent it begins with. -/
theorem get_parent_announced {x p : Node d} {k : Nat} {t : Tree d} {w : World d ε}
    (hp : x.parent? = some p) (hw : w.store.tree = t.announce (x.climb (k + 1))) :
    w.store.tree.get p = (t.get p).announce x.side := by
  rw [hw, Node.climb_succ hp]
  exact Tree.get_announce_head (r := ⟨p, x.side⟩) fun r => Node.ne_of_mem_climb

/-- **One merge** of what the first climb announced: the parent loses its side. -/
theorem store_merged_announced {x p : Node d} {k : Nat} {t : Tree d} {w : World d ε}
    (hp : x.parent? = some p) (hw : w.store.tree = t.announce (x.climb (k + 1))) :
    (w.merged ⟨p, x.side⟩).store =
      w.store.mapTree fun _ => w.store.tree.set p ((t.get p).unmark x.side) := by
  unfold World.merged
  rw [get_parent_announced hp hw, Status.unmark_announce]
  rfl

/-- If the other half of the parent is not occupied, the first climb went on from there, and the
merge leaves what it would have announced had the parent lost its side before. -/
theorem tree_merged_announced {x p : Node d} {k : Nat} {t : Tree d} {w : World d ε}
    (hp : x.parent? = some p) (hw : w.store.tree = t.announce (x.climb (k + 1)))
    (hocc : (t.get p).isOccupied x.side.other = false) :
    (w.merged ⟨p, x.side⟩).store.tree =
      (t.set p ((t.get p).unmark x.side)).announce (p.climb k) := by
  have hup : ∀ r ∈ p.climb k, r.node ≠ p := fun r => Node.ne_of_mem_climb
  have hon : w.store.tree = (t.set p ((t.get p).announce x.side)).announce (p.climb k) := by
    rw [hw, Node.climb_succ hp, Tree.announce]
    dsimp only
    rw [hocc, Bool.false_and, if_neg Bool.false_ne_true]
  rw [store_merged_announced hp hw, Metadata.tree_mapTree, hon, ← Tree.announce_set hup,
    Tree.set_set]

/-- **Up and up again.**  The second climb makes of what the first one announced what a single
recursion makes of the tree before. -/
theorem merge_announce (hobs : obs.LetsPass) {x : Node d} {k : Nat} {t : Tree d} {w : World d ε}
    (hw : w.store.tree = t.announce (x.climb k)) :
    (merge obs (x.climb k) w).store = w.store.mapTree fun _ => t.unwind (x.climb k) := by
  induction k generalizing x t w with
  | zero => exact (Metadata.mapTree_eq_self hw).symm
  | succ k ih =>
    cases hp : x.parent? with
    | none =>
      rw [Node.climb_succ_none hp] at hw ⊢
      exact (Metadata.mapTree_eq_self hw).symm
    | some p =>
      have hup : ∀ r ∈ p.climb k, r.node ≠ p := fun r => Node.ne_of_mem_climb
      have hmerged := store_merged_announced hp hw
      have hgoes := tree_merged_announced hp hw
      rw [Node.climb_succ hp, merge_cons, get_parent_announced hp hw, Status.isOccupied_announce,
        if_pos (by simp), Tree.unwind]
      dsimp only
      by_cases hocc : (t.get p).isOccupied x.side.other = true
      · rw [hocc, Bool.or_true, if_pos rfl, if_pos rfl, hmerged]
        -- the first climb stopped here or went on; what it did above is kept as it is
        congr 1
        funext _
        rw [hw, Node.climb_succ hp, Tree.announce]
        dsimp only
        rw [hocc, Bool.true_and]
        by_cases hcoal : (t.get p).isCoalescing x.side.other = true
        · rw [hcoal, if_pos rfl, if_neg (by simp), ← Tree.announce_set hup, Tree.set_set]
        · rw [if_neg hcoal, if_pos (by simpa using hcoal), Tree.set_set]
      · have htree := hgoes ((Bool.not_eq_true _).mp hocc)
        rw [if_neg hocc, (Bool.not_eq_true _).mp hocc, Bool.or_false]
        split
        · next hempty =>
          rw [List.isEmpty_iff.mp hempty] at htree ⊢
          rw [hmerged, Metadata.tree_mapTree] at htree
          rw [hmerged, htree]
          rfl
        · rw [ih (t := t.set p ((t.get p).unmark x.side)) (by rw [hobs]; exact htree), hobs,
            hmerged]
          rfl

/-- **A release that nobody interferes with** succeeds if its node is not free, and unwinds the
climb from there. -/
theorem release_alone (hobs : obs.LetsPass) {n : Node d} {bound : Nat} (hb : bound ≤ n.level)
    {w : World d ε} (hn : (w.store.tree.get n).isFree = false) :
    (release obs n bound w).1 = true ∧
      (release obs n bound w).2.store = w.store.mapTree (·.retire n bound) := by
  have hoff : ∀ r ∈ n.climb (n.level - bound), r.node ≠ n := fun r => Node.ne_of_mem_climb
  rw [release, hn, mergeHeight_of_le hb]
  refine ⟨rfl, ?_⟩
  exact merge_announce hobs (t := w.store.tree.set n .clear) (Tree.announce_set hoff .clear).symm

end Release

/-! ## 2. The effect on each byte -/

namespace Tree

/-- Above `x`, up to below level `l`, no other half is occupied: a release of `x` merges all of
it. -/
def MergesTo (t : Tree d) (x : Node d) (l : Nat) : Prop :=
  ∀ q e, x.InHalf q e → l < q.level → (t.get q).isOccupied e.other = false

/-- Above `x`, up to below level `l`, every other half that is occupied is about to merge too: a
release of `x` is announced all the way. -/
def AnnouncesTo (t : Tree d) (x : Node d) (l : Nat) : Prop :=
  ∀ q e, x.InHalf q e → l < q.level → (t.get q).isOccupied e.other = true →
    (t.get q).isCoalescing e.other = true

variable {t : Tree d} {x p a : Node d} {k l : Nat} {s : Side}

theorem MergesTo.announcesTo (h : t.MergesTo x l) : t.AnnouncesTo x l := by
  intro q e hq hl hocc
  rw [h q e hq hl] at hocc
  cases hocc

/-- What lies above a node is its parent and what lies above that. -/
theorem forall_above_iff {P : Node d → Side → Prop} (hp : x.parent? = some p) (hl : l < p.level) :
    (∀ q e, x.InHalf q e → l < q.level → P q e) ↔
      P p x.side ∧ ∀ q e, p.InHalf q e → l < q.level → P q e := by
  constructor
  · exact fun h => ⟨h p _ (Node.inHalf_parent? hp) hl,
      fun q e hq => h q e ((Node.inHalf_iff_parent? hp).mpr (.inr hq))⟩
  · rintro ⟨h1, h2⟩ q e hq hlq
    rcases (Node.inHalf_iff_parent? hp).mp hq with ⟨rfl, rfl⟩ | hq
    · exact h1
    · exact h2 q e hq hlq

theorem mergesTo_iff_parent? (hp : x.parent? = some p) (hl : l < p.level) :
    t.MergesTo x l ↔ (t.get p).isOccupied x.side.other = false ∧ t.MergesTo p l :=
  forall_above_iff hp hl

theorem announcesTo_iff_parent? (hp : x.parent? = some p) (hl : l < p.level) :
    t.AnnouncesTo x l ↔ ((t.get p).isOccupied x.side.other = true →
      (t.get p).isCoalescing x.side.other = true) ∧ t.AnnouncesTo p l :=
  forall_above_iff (P := fun q e => (t.get q).isOccupied e.other = true →
    (t.get q).isCoalescing e.other = true) hp hl

/-- Nothing lies above the parent of a node up to below the parent's level. -/
theorem mergesTo_parent? (hp : x.parent? = some p) : t.MergesTo x p.level := by
  intro q e hq hl
  have := hq.level_lt
  have := Node.level_parent? hp
  omega

/-- The bytes above `x` alone decide how far a release of it goes. -/
theorem mergesTo_congr {t' : Tree d} (h : ∀ q e, x.InHalf q e → t'.get q = t.get q) :
    t'.MergesTo x l ↔ t.MergesTo x l := by
  refine forall_congr' fun q => forall_congr' fun e => forall_congr' fun hq => ?_
  rw [h q e hq]

theorem announcesTo_congr {t' : Tree d} (h : ∀ q e, x.InHalf q e → t'.get q = t.get q) :
    t'.AnnouncesTo x l ↔ t.AnnouncesTo x l := by
  refine forall_congr' fun q => forall_congr' fun e => forall_congr' fun hq => ?_
  rw [h q e hq]

/-- Changing the parent changes nothing above it. -/
theorem get_set_of_inHalf {v : Status} (h : p.InHalf a s) : (t.set p v).get a = t.get a := by
  refine get_set_ne _ (fun he => ?_) v
  subst he
  exact Node.not_inHalf_self _ _ h

open Classical in
/-- **The first climb,** byte by byte. -/
theorem get_announce (ha : x.InHalf a s) (hk : x.level ≤ a.level + k) :
    (t.announce (x.climb k)).get a =
      if t.AnnouncesTo x a.level then (t.get a).announce s else t.get a := by
  induction k generalizing x t with
  | zero =>
    have := ha.level_lt
    omega
  | succ k ih =>
    cases hp : x.parent? with
    | none =>
      have := ha.level_lt
      have := Node.parent?_eq_none hp
      omega
    | some p =>
      have hlev := Node.level_parent? hp
      have hup : ∀ r ∈ p.climb k, r.node ≠ p := fun r => Node.ne_of_mem_climb
      rw [Node.climb_succ hp]
      rcases (Node.inHalf_iff_parent? hp).mp ha with ⟨rfl, rfl⟩ | hpa
      · rw [get_announce_head (r := ⟨a, x.side⟩) hup, if_pos (mergesTo_parent? hp).announcesTo]
      · have hsame : ∀ q e, p.InHalf q e →
            (t.set p ((t.get p).announce x.side)).get q = t.get q :=
          fun q e hq => get_set_of_inHalf hq
        unfold announce
        dsimp only
        by_cases hstop : (t.get p).isOccupied x.side.other = true ∧
            (t.get p).isCoalescing x.side.other = false
        · rw [if_pos (by simpa using hstop), hsame a s hpa, if_neg]
          rw [announcesTo_iff_parent? hp hpa.level_lt]
          rintro ⟨h, -⟩
          rw [h hstop.1] at hstop
          cases hstop.2
        · have hgo : (t.get p).isOccupied x.side.other = true →
              (t.get p).isCoalescing x.side.other = true := by simpa using hstop
          rw [if_neg (by simpa using hgo), ih hpa (by omega), hsame a s hpa]
          simp only [announcesTo_congr hsame, announcesTo_iff_parent? hp hpa.level_lt,
            and_iff_right hgo]

/-- **Announced** after the first climb. -/
theorem isCoalescing_announce {c : Side} :
    ((t.announce (x.climb k)).get a).isCoalescing c = true ↔
      (t.get a).isCoalescing c = true ∨
      (x.InHalf a c ∧ x.level ≤ a.level + k ∧ t.AnnouncesTo x a.level) := by
  by_cases hon : ∃ s, x.InHalf a s ∧ x.level ≤ a.level + k
  · obtain ⟨s, ha, hk⟩ := hon
    have hside : x.InHalf a c ↔ c = s := ⟨fun h => h.side_eq ha, fun h => h ▸ ha⟩
    rw [get_announce ha hk, hside]
    split
    · next hn => simp [hn, hk]
    · next hn => simp [hn]
  · have hoff : ∀ r ∈ x.climb k, r.node ≠ a := by
      rintro r hr rfl
      exact hon ⟨r.child, Node.mem_climb_iff.mp hr⟩
    rw [get_announce_of_not_mem hoff, or_iff_left fun h => hon ⟨c, h.1, h.2.1⟩]

/-- Off the climb nothing changes. -/
theorem get_unwind_of_not_mem {path : List (Node.Rung d)} (h : ∀ r ∈ path, r.node ≠ a) :
    (t.unwind path).get a = t.get a := by
  induction path generalizing t with
  | nil => rfl
  | cons r rest ih =>
    have hr : r.node ≠ a := h r List.mem_cons_self
    have hrest : ∀ s ∈ rest, s.node ≠ a := fun s hs => h s (List.mem_cons_of_mem r hs)
    unfold unwind
    dsimp only
    split
    · split
      · rw [get_announce_of_not_mem hrest, get_set_ne _ hr]
      · exact get_set_ne _ hr _
    · rw [ih hrest, get_set_ne _ hr]

/-- The first ancestor loses its side in every case. -/
theorem get_unwind_head {r : Node.Rung d} {rest : List (Node.Rung d)}
    (h : ∀ s ∈ rest, s.node ≠ r.node) :
    (t.unwind (r :: rest)).get r.node = (t.get r.node).unmark r.child := by
  unfold unwind
  dsimp only
  split
  · split
    · rw [get_announce_of_not_mem h, get_set_self]
    · exact get_set_self _ _ _
  · rw [get_unwind_of_not_mem h, get_set_self]

open Classical in
/-- **Both climbs,** byte by byte: an ancestor loses its side as long as no other half below it is
occupied; beyond, a release is announced as far as the first climb went. -/
theorem get_unwind (ha : x.InHalf a s) (hk : x.level ≤ a.level + k) :
    (t.unwind (x.climb k)).get a =
      if t.MergesTo x a.level then (t.get a).unmark s
      else if t.AnnouncesTo x a.level then (t.get a).announce s
      else t.get a := by
  induction k generalizing x t with
  | zero =>
    have := ha.level_lt
    omega
  | succ k ih =>
    cases hp : x.parent? with
    | none =>
      have := ha.level_lt
      have := Node.parent?_eq_none hp
      omega
    | some p =>
      have hlev := Node.level_parent? hp
      have hup : ∀ r ∈ p.climb k, r.node ≠ p := fun r => Node.ne_of_mem_climb
      rw [Node.climb_succ hp]
      rcases (Node.inHalf_iff_parent? hp).mp ha with ⟨rfl, rfl⟩ | hpa
      · rw [get_unwind_head (r := ⟨a, x.side⟩) hup, if_pos (mergesTo_parent? hp)]
      · have hsame : ∀ q e, p.InHalf q e →
            (t.set p ((t.get p).unmark x.side)).get q = t.get q :=
          fun q e hq => get_set_of_inHalf hq
        have hmerges := mergesTo_iff_parent? (t := t) hp hpa.level_lt
        have hannounces := announcesTo_iff_parent? (t := t) hp hpa.level_lt
        unfold unwind
        dsimp only
        by_cases hocc : (t.get p).isOccupied x.side.other = true
        · have hnot : ¬ t.MergesTo x a.level := by
            rw [hmerges, hocc]
            exact fun h => Bool.noConfusion h.1
          rw [if_pos hocc, if_neg hnot]
          by_cases hcoal : (t.get p).isCoalescing x.side.other = true
          · rw [if_pos hcoal, get_announce hpa (by omega), hsame a s hpa]
            simp only [announcesTo_congr hsame, hannounces, hcoal, true_and, implies_true]
          · rw [if_neg hcoal, hsame a s hpa, if_neg]
            rw [hannounces]
            exact fun h => hcoal (h.1 hocc)
        · have hfree := (Bool.not_eq_true _).mp hocc
          rw [if_neg hocc, ih hpa (by omega), hsame a s hpa]
          simp only [mergesTo_congr hsame, announcesTo_congr hsame, hmerges, hannounces, hfree,
            true_and, Bool.false_eq_true, false_implies]

/-- Where a climb does not lead nothing changes. -/
theorem get_unwind_elsewhere (h : ∀ s, x.InHalf a s → a.level + k < x.level) :
    (t.unwind (x.climb k)).get a = t.get a := by
  refine get_unwind_of_not_mem fun r hr he => ?_
  obtain ⟨hin, hl⟩ := Node.mem_climb_iff.mp hr
  rw [he] at hin hl
  have := h _ hin
  omega

/-! ## 3. What is occupied and announced afterwards -/

/-- **Occupied.**  A side is taken back on the climb, as far as it merges. -/
theorem isOccupied_unwind {c : Side} :
    ((t.unwind (x.climb k)).get a).isOccupied c = true ↔ (t.get a).isOccupied c = true ∧
      ¬ (x.InHalf a c ∧ x.level ≤ a.level + k ∧ t.MergesTo x a.level) := by
  by_cases hon : ∃ s, x.InHalf a s ∧ x.level ≤ a.level + k
  · obtain ⟨s, ha, hk⟩ := hon
    have hside : x.InHalf a c ↔ c = s := ⟨fun h => h.side_eq ha, fun h => h ▸ ha⟩
    rw [get_unwind ha hk, hside]
    split
    · next hm => simp [hm, hk]
    · next hm => split <;> simp [hm]
  · rw [get_unwind_elsewhere fun s hs => Nat.lt_of_not_le fun hk => hon ⟨s, hs, hk⟩]
    exact (and_iff_left fun h => hon ⟨c, h.1, h.2.1⟩).symm

/-- **Announced.**  On the climb nothing is, as far as it merges; beyond, all that the first climb
has reached is. -/
theorem isCoalescing_unwind {c : Side} :
    ((t.unwind (x.climb k)).get a).isCoalescing c = true ↔
      ((t.get a).isCoalescing c = true ∧
        ¬ (x.InHalf a c ∧ x.level ≤ a.level + k ∧ t.MergesTo x a.level)) ∨
      (x.InHalf a c ∧ x.level ≤ a.level + k ∧ ¬ t.MergesTo x a.level ∧
        t.AnnouncesTo x a.level) := by
  by_cases hon : ∃ s, x.InHalf a s ∧ x.level ≤ a.level + k
  · obtain ⟨s, ha, hk⟩ := hon
    have hside : x.InHalf a c ↔ c = s := ⟨fun h => h.side_eq ha, fun h => h ▸ ha⟩
    rw [get_unwind ha hk, hside]
    split
    · next hm => simp [hm, hk]
    · next hm =>
      split
      · next hn => simp [hm, hn, hk]
      · next hn => simp [hm, hn]
  · rw [get_unwind_elsewhere fun s hs => Nat.lt_of_not_le fun hk => hon ⟨s, hs, hk⟩]
    rw [or_iff_left fun h => hon ⟨c, h.1, h.2.1⟩]
    exact (and_iff_left fun h => hon ⟨c, h.1, h.2.1⟩).symm

section Retire

variable {n : Node d} {bound : Nat} {c : Side}

/-- The climb of a release of `n` begins in the tree in which `n` is cleared. -/
theorem retire_eq (n : Node d) (bound : Nat) :
    t.retire n bound = (t.set n .clear).unwind (n.climb (n.level - bound)) ∧
      (∀ l, (t.set n .clear).MergesTo n l ↔ t.MergesTo n l) ∧
      ∀ l, (t.set n .clear).AnnouncesTo n l ↔ t.AnnouncesTo n l := by
  have hsame : ∀ q e, n.InHalf q e → (t.set n .clear).get q = t.get q :=
    fun q e hq => get_set_of_inHalf hq
  exact ⟨rfl, fun _ => mergesTo_congr hsame, fun _ => announcesTo_congr hsame⟩

/-- **Occupied after a node is retired.** -/
theorem isOccupied_retire (hb : bound ≤ n.level) :
    ((t.retire n bound).get a).isOccupied c = true ↔
      (n ≠ a ∧ (t.get a).isOccupied c = true) ∧ ¬ (Held n bound a c ∧ t.MergesTo n a.level) := by
  obtain ⟨hretire, hmerges, -⟩ := retire_eq (t := t) n bound
  have hl : n.level ≤ a.level + (n.level - bound) ↔ bound ≤ a.level := by omega
  rw [hretire, isOccupied_unwind, hmerges, hl, Held, and_assoc (a := n.InHalf a c), get_set]
  split
  · next he => simp [he]
  · next he => simp [he]

/-- **Announced after a node is retired.** -/
theorem isCoalescing_retire (hb : bound ≤ n.level) :
    ((t.retire n bound).get a).isCoalescing c = true ↔
      ((n ≠ a ∧ (t.get a).isCoalescing c = true) ∧ ¬ (Held n bound a c ∧ t.MergesTo n a.level)) ∨
      (Held n bound a c ∧ ¬ t.MergesTo n a.level ∧ t.AnnouncesTo n a.level) := by
  obtain ⟨hretire, hmerges, hannounces⟩ := retire_eq (t := t) n bound
  have hl : n.level ≤ a.level + (n.level - bound) ↔ bound ≤ a.level := by omega
  rw [hretire, isCoalescing_unwind, hmerges, hannounces, hl, Held, and_assoc (a := n.InHalf a c),
    and_assoc (a := n.InHalf a c), get_set]
  split
  · next he => simp [he]
  · next he => simp [he]

/-- Clearing a busy byte takes no announcement away. -/
theorem isCoalescing_retire_of_busy (hn : t.get n = .busy) (hb : bound ≤ n.level) :
    ((t.retire n bound).get a).isCoalescing c = true ↔
      ((t.get a).isCoalescing c = true ∧ ¬ (Held n bound a c ∧ t.MergesTo n a.level)) ∨
      (Held n bound a c ∧ ¬ t.MergesTo n a.level ∧ t.AnnouncesTo n a.level) := by
  have hflags : (n ≠ a ∧ (t.get a).isCoalescing c = true) ↔ (t.get a).isCoalescing c = true := by
    refine and_iff_right_of_imp fun hc he => ?_
    rw [← he, hn, Status.isCoalescing_busy] at hc
    cases hc
  rw [isCoalescing_retire hb, hflags]

/-- **A new announcement stands above an old one.**  A release announces something for good only
above an ancestor whose other half was about to merge. -/
theorem exists_isCoalescing_of_retire (hb : bound ≤ n.level)
    (h : ((t.retire n bound).get a).isCoalescing c = true) :
    (t.get a).isCoalescing c = true ∨
      ∃ q e, a.level < q.level ∧ (t.get q).isCoalescing e = true := by
  rcases (isCoalescing_retire hb).mp h with ⟨⟨-, hc⟩, -⟩ | ⟨-, hnot, hann⟩
  · exact .inl hc
  · refine .inr (Classical.byContradiction fun hno => hnot fun q e hq hl => ?_)
    exact (Bool.not_eq_true _).mp fun hocc => hno ⟨q, e.other, hl, hann q e hq hl hocc⟩

end Retire

end Tree
end BuddyTree
