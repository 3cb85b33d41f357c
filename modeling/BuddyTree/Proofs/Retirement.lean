/-
# Everything a release changes

What a release does that nobody interferes with is known to the last bit, whatever the bytes were
before.  Its second climb is never broken off: the announcement it looks for is always there,
because the first climb has been to every ancestor that the second one comes to.

The main facts: `unbroken_announce` (the second climb finds every announcement), `retired_retire`
and `Retired.unique` (the tree that a release leaves behind, and that nothing about it is left
open), and `release_effect`, which puts them together.
-/
import BuddyTree.Proofs.Rest

namespace BuddyTree

variable {d : Nat} {ε : Type} {obs : Observer d ε} {t t' : Tree d} {n : Node d} {bound : Nat}

/-! ## 1. The second climb is not broken off -/

/-- Every announcement that the second climb looks for is there.  It looks at the next ancestor only
if there is one, and if it has left this one without a flag on the other side. -/
def Unbroken (obs : Observer d ε) : List (Node.Rung d) → World d ε → Prop
  | [], _ => True
  | r :: rest, w =>
    (w.store.tree.get r.node).isCoalescing r.child = true ∧
      (rest.isEmpty = false → (w.store.tree.get r.node).isOccupied r.child.other = false →
        Unbroken obs rest (obs.react (.coalesced r.node.id) (w.merged r)))

/-- **Announced is announced.**  Where the second climb goes on, the other half is not occupied, and
so the first one went on there too. -/
theorem unbroken_announce (hobs : obs.LetsPass) {x : Node d} {k : Nat} {w : World d ε}
    (hw : w.store.tree = t.announce (x.climb k)) : Unbroken obs (x.climb k) w := by
  induction k generalizing x t w with
  | zero => exact trivial
  | succ k ih =>
    cases hp : x.parent? with
    | none =>
      rw [Node.climb_succ_none hp]
      exact trivial
    | some p =>
      have hget := get_parent_announced hp hw
      rw [Node.climb_succ hp]
      refine ⟨by rw [hget]; simp, fun _ hocc => ih (t := t.set p ((t.get p).unmark x.side)) ?_⟩
      rw [hget, Status.isOccupied_announce] at hocc
      rw [hobs]
      exact tree_merged_announced hp hw hocc

/-! ## 2. The tree afterwards -/

namespace Tree

/-- No climb comes to the unused slot. -/
theorem spare_announce (t : Tree d) (path : List (Node.Rung d)) :
    (t.announce path).slots[0]? = t.slots[0]? := by
  induction path generalizing t with
  | nil => rfl
  | cons r rest ih =>
    unfold announce
    dsimp only
    split
    · exact t.spare_set _ _
    · exact (ih _).trans (t.spare_set _ _)

theorem spare_unwind (t : Tree d) (path : List (Node.Rung d)) :
    (t.unwind path).slots[0]? = t.slots[0]? := by
  induction path generalizing t with
  | nil => rfl
  | cons r rest ih =>
    unfold unwind
    dsimp only
    split
    · split
      · exact (spare_announce _ _).trans (t.spare_set _ _)
      · exact t.spare_set _ _
    · exact (ih _).trans (t.spare_set _ _)

open Classical in
/-- **On the climb** of a retired node, a byte is what the two climbs make of it. -/
theorem get_retire (hb : bound ≤ n.level) {a : Node d} {c : Side} (h : Held n bound a c) :
    (t.retire n bound).get a =
      if t.MergesTo n a.level then (t.get a).unmark c
      else if t.AnnouncesTo n a.level then (t.get a).announce c
      else t.get a := by
  obtain ⟨hretire, hmerges, hannounces⟩ := t.retire_eq n bound
  have hlevel : n.level ≤ a.level + (n.level - bound) := by
    have := h.2
    omega
  rw [hretire, get_unwind h.1 hlevel, get_set_of_inHalf h.1]
  simp only [hmerges, hannounces]

/-- Off the climb there is only the node itself. -/
theorem get_retire_of_not_held (hb : bound ≤ n.level) {a : Node d}
    (h : ∀ c, ¬ Held n bound a c) : (t.retire n bound).get a = (t.set n .clear).get a := by
  refine get_unwind_elsewhere fun s hs => ?_
  have : ¬ bound ≤ a.level := fun hl => h s ⟨hs, hl⟩
  omega

end Tree

/-- The tree `t'` is what a release of `n` up to level `bound` makes of `t`. -/
structure Retired (t : Tree d) (n : Node d) (bound : Nat) (t' : Tree d) : Prop where
  /-- The byte of the node is zero. -/
  self : t'.get n = .clear
  /-- An ancestor loses both flags of the side of the node, up to and including the first one whose
  other half is occupied. -/
  merged : ∀ {a c}, Held n bound a c → t.MergesTo n a.level → t'.get a = (t.get a).unmark c
  /-- Beyond that one the side is announced, up to and including the first ancestor whose other half
  is occupied and not about to merge. -/
  announced : ∀ {a c}, Held n bound a c → ¬ t.MergesTo n a.level → t.AnnouncesTo n a.level →
    t'.get a = (t.get a).announce c
  /-- No ancestor beyond changes, -/
  beyond : ∀ {a c}, Held n bound a c → ¬ t.AnnouncesTo n a.level → t'.get a = t.get a
  /-- and no other node does. -/
  elsewhere : ∀ {a}, n ≠ a → (∀ c, ¬ Held n bound a c) → t'.get a = t.get a
  /-- Nor does the slot that is no node. -/
  spare : t'.slots[0]? = t.slots[0]?

/-- Nothing about the tree is left open. -/
theorem Retired.unique {t'' : Tree d} (h : Retired t n bound t') (h' : Retired t n bound t'') :
    t' = t'' := by
  refine Tree.ext_get (fun a => ?_) (h.spare.trans h'.spare.symm)
  by_cases hself : n = a
  · rw [← hself, h.self, h'.self]
  by_cases hon : ∃ c, Held n bound a c
  · obtain ⟨c, hc⟩ := hon
    by_cases hm : t.MergesTo n a.level
    · rw [h.merged hc hm, h'.merged hc hm]
    by_cases hn : t.AnnouncesTo n a.level
    · rw [h.announced hc hm hn, h'.announced hc hm hn]
    · rw [h.beyond hc hn, h'.beyond hc hn]
  · have hoff : ∀ c, ¬ Held n bound a c := fun c hc => hon ⟨c, hc⟩
    rw [h.elsewhere hself hoff, h'.elsewhere hself hoff]

/-- **A retired node,** byte by byte. -/
theorem retired_retire (t : Tree d) (hb : bound ≤ n.level) :
    Retired t n bound (t.retire n bound) where
  self := by
    rw [Tree.get_retire_of_not_held hb fun c hc => Node.not_inHalf_self n c hc.1, Tree.get_set_self]
  merged h hm := by rw [Tree.get_retire hb h, if_pos hm]
  announced h hm hn := by rw [Tree.get_retire hb h, if_neg hm, if_pos hn]
  beyond h hn := by rw [Tree.get_retire hb h, if_neg fun hm => hn hm.announcesTo, if_neg hn]
  elsewhere hne h := by rw [Tree.get_retire_of_not_held hb h, Tree.get_set_ne _ hne]
  spare := by rw [Tree.retire, Tree.spare_unwind, Tree.spare_set]

/-! ## 3. The whole release -/

/-- **The exact effect of a release.**  If the node is no block and nothing is occupied below it,
the release is refused and changes nothing.  Otherwise it succeeds; the second climb finds every
announcement it looks for; and of all metadata only the tree changes, as `Retired` says: the byte of
the node, and those of its ancestors up to level `bound`. -/
theorem release_effect (hobs : obs.LetsPass) (n : Node d) (hb : bound ≤ n.level) (w : World d ε) :
    let s := w.store.tree.get n
    let path := n.climb (n.level - bound)
    let announced := w.mapStore (.mapTree fun t => (t.announce path).set n .clear)
    (s.has .block = false ∧ (∀ c, s.isOccupied c = false) →
      release obs n bound w = (false, w)) ∧
    (s.has .block = true ∨ (∃ c, s.isOccupied c = true) →
      release obs n bound w = (true, merge obs path announced) ∧ Unbroken obs path announced ∧
        ∃ t', (release obs n bound w).2.store = w.store.mapTree (fun _ => t') ∧
          Retired w.store.tree n bound t') := by
  intro s path announced
  constructor
  · intro hfree
    exact if_pos (s.isFree_iff.mpr hfree)
  · intro hbusy
    have hn : s.isFree = false := s.isFree_eq_false_iff.mpr hbusy
    have hoff : ∀ r ∈ path, r.node ≠ n := fun r => Node.ne_of_mem_climb
    have hrelease : release obs n bound w = (true, merge obs path announced) := by
      rw [release, if_neg (by rw [hn]; exact Bool.false_ne_true), mergeHeight_of_le hb]
    exact ⟨hrelease, unbroken_announce hobs (Tree.announce_set hoff .clear).symm, _,
      (release_alone hobs hb hn).2, retired_retire _ hb⟩

/-- A leaf out of sixteen, node 16.  It merges into 8, and on into 4, whose other half is occupied;
that half is about to merge, so 2 has an announcement too; and 1 is not reached.  Released once
more, the leaf is refused. -/
theorem release_effect_of_leaf :
    let leaf : Node 4 := ⟨16, by decide, by decide⟩
    let tree : List UInt8 → Tree 4 := fun bytes => ⟨.ofFn fun i => ⟨bytes.getD i 0⟩⟩
    let world : Tree 4 → World 4 Unit := fun t => ⟨(Metadata.blank 4).mapTree fun _ => t, ()⟩
    let before := tree [0, 0xff, 0x01, 0, 0xe7, 0, 0, 0, 0xe2, 0, 0, 0, 0, 0, 0, 0, 0xf7]
    let after := tree [0, 0xff, 0x09, 0, 0xe5, 0, 0, 0, 0xe0, 0, 0, 0, 0, 0, 0, 0, 0]
    (silent 4).LetsPass ∧ 0 ≤ leaf.level ∧ Retired before leaf 0 after ∧
      release (silent 4) leaf 0 (world before) = (true, world after) ∧
      release (silent 4) leaf 0 (world after) = (false, world after) := by
  intro leaf tree world before after
  have hbound : 0 ≤ leaf.level := Nat.zero_le _
  obtain ⟨-, hbusy⟩ := release_effect letsPass_silent leaf hbound (world before)
  obtain ⟨hfree, -⟩ := release_effect letsPass_silent leaf hbound (world after)
  obtain ⟨hrelease, -, t', hstore, hretired⟩ := hbusy (.inl (by decide))
  have hafter : (release (silent 4) leaf 0 (world before)).2.store.tree = after := by
    decide +kernel
  have ht' : t' = after := (congrArg Metadata.tree hstore).symm.trans hafter
  have hworld : (release (silent 4) leaf 0 (world before)).2 = world after :=
    congrArg (World.mk · ()) (hstore.trans (by rw [ht']; rfl))
  have htrue : (release (silent 4) leaf 0 (world before)).1 = true := congrArg Prod.fst hrelease
  exact ⟨letsPass_silent, hbound, ht' ▸ hretired, Prod.ext htrue hworld,
    hfree ⟨by decide, fun c => by cases c <;> decide⟩⟩

end BuddyTree
