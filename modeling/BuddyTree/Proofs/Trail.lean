/-
# The trail of a claim that is undone

A claim that a block refused is undone by a release, and others may come in while that climbs.
What it has announced and not withdrawn yet is its *trail*: the halves in which the claimed node
lies, of the nodes below the block and above where the climb stands.

As long as the block is there, it refuses every other claim below it as well.  Such a claim
withdraws and renews a part of the trail on its way up, and where its way leaves the trail it
stops, because there the other half is still announced.  If its way never leaves the trail, it
withdraws all of it.

The main facts: `trail_iff_of_branch` and `trail_dichotomy` (how a way and a trail can meet),
`announces_merge` (what the second climb of another claim leaves), and
`Holding.release_trail` (so another claim that is undone leaves the trail, or nothing).
-/
import BuddyTree.Proofs.Rest

namespace BuddyTree

variable {d : Nat}

/-! ## 1. Announcing all the way -/

/-- **The first climb announces** all its way, if it never finds the other half occupied for
good. -/
theorem Tree.Announces.announce {t : Tree d} {F : Node d → Side → Prop} {x : Node d} {k : Nat}
    (hk : k ≤ x.level) (h : t.Announces F)
    (hgo : ∀ r ∈ x.climb k, (t.get r.node).isOccupied r.child.other = true →
      (t.get r.node).isCoalescing r.child.other = true) :
    (t.announce (x.climb k)).Announces fun a s => F a s ∨ Held x (x.level - k) a s := by
  induction k generalizing t x F with
  | zero =>
    exact h.congr fun a s => (or_iff_left (not_held_of_level_le (Nat.le_refl _) a s)).symm
  | succ k ih =>
    cases hp : x.parent? with
    | none =>
      have := Node.parent?_eq_none hp
      omega
    | some p =>
      have hlev := Node.level_parent? hp
      rw [Node.climb_succ hp] at hgo ⊢
      have hann : (t.set p ((t.get p).announce x.side)).Announces
          fun a s => F a s ∨ a = p ∧ s = x.side := by
        refine h.set (fun s => ?_) fun a s ha => (or_iff_left fun he => ha he.1).symm
        simp [h p s]
      have hhead := hgo ⟨p, x.side⟩ List.mem_cons_self
      unfold Tree.announce
      dsimp only
      split
      · next hstop =>
        have : (t.get p).isOccupied x.side.other = true ∧
            (t.get p).isCoalescing x.side.other = false := by simpa using hstop
        rw [hhead this.1] at this
        cases this.2
      · refine (ih (by omega) hann fun r hr => ?_).congr fun a s => ?_
        · rw [Tree.get_set_ne _ fun he => Node.ne_of_mem_climb hr he.symm]
          exact hgo r (List.mem_cons_of_mem _ hr)
        · rw [held_iff_parent? hp, or_assoc, ← hlev, Nat.add_sub_add_right,
            and_iff_left (Nat.sub_le p.level k)]

/-! ## 2. Trails -/

/-- The halves in which node `n` lies, of the nodes below `o` down to above level `l`. -/
def Trail (o n : Node d) (l : Nat) (a : Node d) (s : Side) : Prop :=
  n.InHalf a s ∧ o.level < a.level ∧ a.level < l

section Trails

variable {o n x y p a : Node d} {l : Nat} {s c : Side}

theorem not_trail_of_level_le (h : l ≤ o.level + 1) (a : Node d) (s : Side) :
    ¬ Trail o n l a s := by
  rintro ⟨-, h1, h2⟩
  omega

/-- A trail lies below `o`. -/
theorem Trail.within (h : Trail o n l a s) (hn : n.Within o) : a.Within o :=
  hn.total h.1.within (Nat.le_of_lt h.2.1)

theorem Trail.exists_inHalf (h : Trail o n l a s) (hn : n.Within o) : ∃ c, a.InHalf o c :=
  (h.within hn).exists_inHalf h.2.1

/-- **Where a way leaves the trail,** everything above is on the trail, and nothing below is. -/
theorem trail_iff_of_branch (h : Trail o n l p c.other) (hx : x.InHalf p c) :
    (Trail o n l a s ∧ ¬ Held x p.level a s) ∨ Held p (o.level + 1) a s ↔ Trail o n l a s := by
  obtain ⟨hp, hop, hpl⟩ := h
  constructor
  · rintro (⟨ht, -⟩ | ⟨hin, hl⟩)
    · exact ht
    · exact ⟨hp.trans hin, hl, Nat.lt_trans hin.level_lt hpl⟩
  · rintro ⟨hin, hoa, hal⟩
    by_cases hl : a.level < p.level
    · exact .inr ⟨hin.of_within hp.within hl, hoa⟩
    · refine .inl ⟨⟨hin, hoa, hal⟩, ?_⟩
      rintro ⟨hxa, -⟩
      by_cases he : a.level = p.level
      · -- `n` and `x` lie in different halves of `p`
        obtain rfl : a = p := hxa.within.eq_of_level hx.within he
        rw [hxa.side_eq hx] at hin
        exact Side.other_ne c (hp.side_eq hin)
      · have h1 : a.InHalf p c := hx.of_within hxa.within (by omega)
        have h2 : a.InHalf p c.other := hp.of_within hin.within (by omega)
        exact Side.other_ne c (h2.side_eq h1)

/-- **Where no way leaves it,** the way of `x` shares nothing with the trail, or all of it. -/
theorem trail_dichotomy (hx : ∀ s, ¬ Trail o n l x s)
    (hno : ∀ a s, Held x (o.level + 1) a s → ¬ Trail o n l a s.other) :
    (∀ a s, Trail o n l a s → ¬ x.InHalf a s) ∨ ∀ a s, Trail o n l a s → x.InHalf a s := by
  by_cases hshare : ∃ a s, Trail o n l a s ∧ x.InHalf a s
  · obtain ⟨a₀, s₀, ht₀, hx₀⟩ := hshare
    -- from a shared half upwards both ways are the same, and downwards they do not part
    have key : ∀ j a s, Trail o n l a s → a.level ≤ a₀.level + j → x.InHalf a s := by
      intro j
      induction j with
      | zero =>
        intro a s ht hl
        by_cases he : a.level = a₀.level
        · obtain rfl : a = a₀ := ht.1.within.eq_of_level ht₀.1.within he
          rwa [ht.1.side_eq ht₀.1]
        · exact hx₀.within.inHalf (ht.1.of_within ht₀.1.within (by omega))
      | succ j ih =>
        intro a s ht hl
        by_cases hle : a.level ≤ a₀.level + j
        · exact ih a s ht hle
        · cases hp : a.parent? with
          | none =>
            have := Node.parent?_eq_none hp
            omega
          | some p =>
            have hlev := Node.level_parent? hp
            have := ht₀.2.1
            have htp : Trail o n l p a.side :=
              ⟨ht.1.within.inHalf (Node.inHalf_parent? hp), by omega, by have := ht.2.2; omega⟩
            have hxa : x.Within a := (Node.inHalf_parent?_iff hp).mp (ih p a.side htp (by omega))
            rcases Node.within_iff_eq_or_inHalf.mp hxa with rfl | ⟨t, hin⟩
            · exact absurd ht (hx s)
            · rcases s.eq_or_eq_other t with rfl | rfl
              · exact hin
              · exact absurd ht (hno a t ⟨hin, ht.2.1⟩)
    exact .inr fun a s ht => key a.level a s ht (by omega)
  · exact .inl fun a s ht hin => hshare ⟨a, s, ht, hin⟩

end Trails

/-! ## 3. Another claim below the same block -/

/-- A merge that nobody listens to. -/
theorem merge_silent_cons {r : Node.Rung d} {rest : List (Node.Rung d)} {w : World d Unit}
    (hc : (w.store.tree.get r.node).isCoalescing r.child = true) :
    merge (silent d) (r :: rest) w =
      if (w.store.tree.get r.node).isOccupied r.child.other then w.merged r
      else merge (silent d) rest (w.merged r) := by
  rw [merge_cons, if_pos hc]
  cases rest <;> simp [merge, silent]

namespace Metadata

variable {m : Metadata d} {top : Nat} {o n x : Node d} {l : Nat}

/-- Below a recorded block a side is occupied for an announcement only. -/
theorem Sound.isCoalescing_of_isOccupied (h : m.Sound top) (ho : m.Records o) {a : Node d}
    {c s : Side} (ha : a.InHalf o c) (hocc : (m.tree.get a).isOccupied s = true) :
    (m.tree.get a).isCoalescing s = true := by
  have hl : top ≤ a.level := Nat.le_trans (h.level ho) (Nat.le_of_lt ha.level_lt)
  rcases (h.fits.occupied (fun hr => h.apart ho hr ha) hl s).mp hocc with ⟨b, hb, hin⟩ | hc
  · exact absurd (hin.trans ha) (h.apart ho hb)
  · exact hc

/-- Likewise for the sides that do not lead to a node that is held. -/
theorem Holding.isCoalescing_of_isOccupied {bound : Nat} (h : m.Holding top x bound)
    (ho : m.Records o) {a : Node d} {c e : Side} (ha : a.InHalf o c) (hx : x.InHalf a e)
    (hocc : (m.tree.get a).isOccupied e.other = true) :
    (m.tree.get a).isCoalescing e.other = true := by
  have hl : top ≤ a.level := Nat.le_trans (h.level ho) (Nat.le_of_lt ha.level_lt)
  have hnot : ¬ (m.Records a ∨ a = x) := by
    rintro (hr | rfl)
    · exact h.apart ho hr ha
    · exact Node.not_inHalf_self _ _ hx
  rcases (h.fits.occupied hnot hl e.other).mp hocc with (⟨b, hb, hin⟩ | ⟨hin, -⟩) | hc
  · exact absurd (hin.trans ha) (h.apart ho hb)
  · exact absurd (hin.side_eq hx) (Side.other_ne e)
  · exact hc

/-- The other half at a trail is free. -/
theorem Sound.not_isOccupied_other (hs : m.Sound top) (ho : m.Records o)
    (h : m.tree.Announces (Trail o n l)) {p : Node d} {c e : Side} (hp : p.InHalf o c)
    (hn : n.InHalf p e) : (m.tree.get p).isOccupied e.other = false := by
  refine (Bool.not_eq_true _).mp fun hocc => ?_
  have ht := (h p _).mp (hs.isCoalescing_of_isOccupied ho hp hocc)
  exact Side.other_ne _ (ht.1.side_eq hn)

end Metadata

/-- A merge takes its half out of the trail. -/
theorem Tree.Announces.merged {ε : Type} {w : World d ε} {o n p : Node d} {e : Side} {l : Nat}
    (h : w.store.tree.Announces (Trail o n l)) (hn : n.InHalf p e) (hl : l = p.level + 1) :
    (w.merged ⟨p, e⟩).store.tree.Announces (Trail o n p.level) := by
  refine h.set (fun s => ?_) fun a s ha => ?_
  · refine iff_of_false (fun hc => ?_) fun ht => absurd ht.2.2 (Nat.lt_irrefl _)
    simp only [Status.isCoalescing_unmark, Bool.and_eq_true, Bool.not_eq_true',
      decide_eq_false_iff_not] at hc
    exact hc.2 (((h p s).mp hc.1).1.side_eq hn)
  · refine and_congr_right fun hin => and_congr_right fun _ => ⟨fun hlt => ?_, fun hlt => ?_⟩
    · have : a.level ≠ p.level := fun he => ha (hin.within.eq_of_level hn.within he)
      omega
    · omega

open Metadata in
/-- **The second climb** of a claim of `x` that is undone below `o`.  It stands at `y`, has
withdrawn what it announced up to there, and so leaves the whole trail, or no part of it that is on
its way. -/
theorem announces_merge {top : Nat} {o n x y : Node d} {l k : Nat} {w : World d Unit}
    (hs : w.store.Sound top) (ho : w.store.Records o) (hx : x.Within y) (hy : y.Within o)
    (hk : y.level = o.level + 1 + k)
    (hw : w.store.tree.Announces fun a s =>
      (Trail o n l a s ∧ ¬ Held x y.level a s) ∨ Held y (o.level + 1) a s) :
    (merge (silent d) (y.climb k) w).store.tree.Announces (Trail o n l) ∨
      ((merge (silent d) (y.climb k) w).store.tree.Announces
          (fun a s => Trail o n l a s ∧ ¬ Held x (o.level + 1) a s) ∧
        ∀ a s, Held y (o.level + 1) a s → ¬ Trail o n l a s.other) := by
  induction k generalizing y w with
  | zero =>
    have hnot : ∀ a s, ¬ Held y (o.level + 1) a s := not_held_of_level_le (by omega)
    refine .inr ⟨hw.congr fun a s => ?_, fun a s ha => absurd ha (hnot a s)⟩
    rw [or_iff_left (hnot a s), hk]
  | succ k ih =>
    cases hp : y.parent? with
    | none =>
      have := Node.parent?_eq_none hp
      omega
    | some p =>
      have hlev := Node.level_parent? hp
      have hyp := Node.inHalf_parent? hp
      have hpo : p.Within o := hy.total hyp.within (by omega)
      obtain ⟨e, hpe⟩ := hpo.exists_inHalf (by omega)
      have hxp : x.InHalf p y.side := hx.inHalf hyp
      have hc : (w.store.tree.get p).isCoalescing y.side = true :=
        (hw p _).mpr (.inr ⟨hyp, by omega⟩)
      rw [Node.climb_succ hp, merge_silent_cons (r := ⟨p, y.side⟩) hc]
      -- the merge at `p` takes its half out of what is announced
      have hw' : (w.merged ⟨p, y.side⟩).store.tree.Announces fun a s =>
          (Trail o n l a s ∧ ¬ Held x p.level a s) ∨ Held p (o.level + 1) a s := by
        refine hw.set (fun s => ?_) fun a s ha => ?_
        · have hy' : Held y (o.level + 1) p s ↔ s = y.side :=
            ⟨fun h => h.1.side_eq hyp, fun h => ⟨h ▸ hyp, by omega⟩⟩
          have hx' : Held x p.level p s ↔ s = y.side :=
            ⟨fun h => h.1.side_eq hxp, fun h => ⟨h ▸ hxp, Nat.le_refl _⟩⟩
          have hx'' : ¬ Held x y.level p s := fun h => absurd h.2 (by omega)
          have hp' : ¬ Held p (o.level + 1) p s := fun h => Node.not_inHalf_self _ _ h.1
          rw [Status.isCoalescing_unmark, Bool.and_eq_true, hw p s]
          simp only [hy', hx', hx'', hp', not_false_eq_true, and_true, or_false,
            Bool.not_eq_true', decide_eq_false_iff_not]
          exact ⟨fun h => ⟨h.1.resolve_right h.2, h.2⟩, fun h => ⟨.inl h.1, h.2⟩⟩
        · have hx' : Held x y.level a s ↔ Held x p.level a s := by
            refine and_congr_right fun hin => ⟨fun h => by omega, fun h => ?_⟩
            have : a.level ≠ p.level := fun he => ha (hin.within.eq_of_level hxp.within he)
            omega
          have hy' : Held y (o.level + 1) a s ↔ Held p (o.level + 1) a s :=
            (held_iff_parent? hp).trans (or_iff_right fun h => ha h.1)
          rw [hx', hy']
      obtain ⟨hpr, hpl, -, -⟩ := hs.fits.of_isCoalescing hc
      by_cases hbranch : Trail o n l p y.side.other
      · have hcother : (w.store.tree.get p).isCoalescing y.side.other = true :=
          (hw p _).mpr (.inl ⟨hbranch, fun h => absurd h.2 (by omega)⟩)
        have hocc : (w.store.tree.get p).isOccupied y.side.other = true :=
          (hs.fits.occupied hpr hpl _).mpr (.inr hcother)
        refine .inl ?_
        simp only [hocc, if_true]
        exact hw'.congr fun a s => trail_iff_of_branch hbranch hxp
      · have hocc : (w.store.tree.get p).isOccupied y.side.other = false := by
          refine (Bool.not_eq_true _).mp fun hocc => ?_
          have hcother := hs.isCoalescing_of_isOccupied ho hpe hocc
          rcases (hw p _).mp hcother with ⟨ht, -⟩ | ⟨hin, -⟩
          · exact hbranch ht
          · exact Side.other_ne _ (hin.side_eq hyp)
        simp only [hocc, Bool.false_eq_true, if_false]
        refine (ih (hs.merged (r := ⟨p, y.side⟩) hc) ho hxp.within hpo (by omega) hw').imp id
          fun h => ?_
        refine ⟨h.1, fun a s ha => ?_⟩
        rcases (held_iff_parent? hp).mp ha with ⟨rfl, rfl, -⟩ | ha
        · exact hbranch
        · exact h.2 a s ha

namespace Metadata

variable {m : Metadata d} {top : Nat} {o n x : Node d} {l : Nat}

/-- The first climb of a claim of `x` that is undone below `o` announces all its way. -/
theorem Holding.announces_giveUp {F : Node d → Side → Prop}
    (h : m.Holding top x (o.level + 1)) (ho : m.Records o) (hx : x.Within o)
    (hm : m.tree.Announces F) :
    (m.tree.giveUp x (o.level + 1)).Announces fun a s => F a s ∨ Held x (o.level + 1) a s := by
  have hle := h.bound_le
  have hann := hm.announce (x := x) (k := x.level - (o.level + 1)) (Nat.sub_le _ _) (by
    intro r hr
    obtain ⟨hin, hl⟩ := Node.mem_climb_iff.mp hr
    obtain ⟨c, hc⟩ := (hx.total hin.within (by omega)).exists_inHalf (by omega)
    exact h.isCoalescing_of_isOccupied ho hc hin)
  rw [Nat.sub_sub_self hle] at hann
  refine hann.set (fun s => ?_) fun _ _ _ => Iff.rfl
  have hbusy := hm x s
  rw [h.fits.busy (.inr rfl), Status.isCoalescing_busy] at hbusy
  rw [Status.isCoalescing_clear, ← hbusy]
  exact (or_iff_left fun hin => Node.not_inHalf_self _ _ hin.1).symm

/-- **A claim is undone on the way of another.**  It leaves the other one's trail, or nothing. -/
theorem Holding.release_trail (h : m.Holding top x (o.level + 1)) (ho : m.Records o)
    (hx : x.Within o)
    (hm : m.tree.Announces fun a s => Trail o n l a s ∧ ¬ Held x (o.level + 1) a s) :
    (BuddyTree.release (silent d) x (o.level + 1) ⟨m, ()⟩).2.store.tree.Announces (Trail o n l) ∨
      (BuddyTree.release (silent d) x (o.level + 1) ⟨m, ()⟩).2.store.tree.Quiet := by
  have hle := h.bound_le
  have hoff : ∀ s, ¬ Trail o n l x s := by
    intro s ht
    have := (hm x s).mpr ⟨ht, fun hin => Node.not_inHalf_self _ _ hin.1⟩
    rw [h.fits.busy (.inr rfl), Status.isCoalescing_busy] at this
    cases this
  have hgive : (m.giveUp x (o.level + 1)).tree.Announces fun a s =>
      (Trail o n l a s ∧ ¬ Held x x.level a s) ∨ Held x (o.level + 1) a s := by
    refine (h.announces_giveUp ho hx hm).congr fun a s => ?_
    have hx' : ¬ Held x x.level a s := not_held_of_level_le (Nat.le_refl _) a s
    by_cases hheld : Held x (o.level + 1) a s <;> simp [hheld, hx']
  have hmerge := announces_merge (k := x.level - (o.level + 1))
    (w := ⟨m.giveUp x (o.level + 1), ()⟩) h.giveUp ho (Node.within_self x) hx (by omega) hgive
  rw [Holding.release_eq (silent d) (w := ⟨m, ()⟩) h]
  rcases hmerge with hann | ⟨hann, hno⟩
  · exact .inl hann
  · rcases trail_dichotomy hoff hno with hnone | hall
    · exact .inl (hann.congr fun a s => and_iff_left_of_imp fun ht hheld => hnone a s ht hheld.1)
    · refine .inr fun a s => (Bool.not_eq_true _).mp fun hc => ?_
      obtain ⟨ht, hnot⟩ := (hann a s).mp hc
      exact hnot ⟨hall a s ht, ht.2.1⟩

/-- **Elsewhere** a claim that is undone has nothing to do with the trail. -/
theorem Holding.release_elsewhere {bound : Nat} (h : m.Holding top x bound) (hn : n.Within o)
    (hx : ¬ x.Within o) (hm : m.tree.Announces (Trail o n l)) :
    (BuddyTree.release (silent d) x bound ⟨m, ()⟩).2.store.tree.Announces (Trail o n l) := by
  intro a s
  rw [isCoalescing_release letsPass_silent (w := ⟨m, ()⟩) h fun r hr c => ?_]
  · exact hm a s
  · refine (Bool.not_eq_true _).mp fun hc => hx ?_
    exact (Node.mem_climb_iff.mp hr).1.within.trans (((hm _ _).mp hc).within hn)

end Metadata

end BuddyTree
