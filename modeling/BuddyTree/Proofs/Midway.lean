/-
# A release that is half way up

A release that pauses between two merges has given its block up already: its node can be had again,
and so can every node up to the one it has reached.  Above that one the tree still counts the block,
and a release is announced wherever nothing else does.

To others it is as if the release had not begun yet, as long as they do not take a block from under
the node that it has reached: they get the replies they would get then, and leave the release half
way up.  Once somebody takes a block there, the release is over, and it is as if it had been made
just before.

The main facts: `Midway.merged` and `Midway.quiet_merged` (the climb goes on, or has nothing more to
do), `Midway.call` (what others see), and `AtRest.call_discharge` (that the release is counted only
in the end makes no difference to them).
-/
import BuddyTree.Proofs.Answers
import BuddyTree.Proofs.Rollback

namespace BuddyTree

namespace Metadata

variable {d : Nat} {m s : Metadata d} {top : Nat} {n x y p a b : Node d} {c : Side}

/-! ## 1. Half way up -/

/-- What a release of a recorded block can announce: it gets as far as no other block is recorded in
the half that it comes from. -/
theorem Sound.announcesTo_iff (h : m.Sound top) (hx : m.Records x) (ha : x.InHalf a c)
    (hl : top ≤ a.level) :
    m.tree.AnnouncesTo x a.level ↔ ¬ Houses (fun b => m.Records b ∧ b ≠ x) a c := by
  have hq : ∀ q e, x.InHalf q e → ¬ m.Records q := fun q e hin hr => h.apart hr hx hin
  constructor
  · rintro hann ⟨b, ⟨hb, hne⟩, hba⟩
    have hxb : ¬ x.Within b := fun hw => hne (h.within_eq hb hx hw).symm
    have hbx : ¬ b.Within x := fun hw => hne (h.within_eq hx hb hw)
    obtain ⟨q, e, hxq, hbq, hlq⟩ := Node.exists_branch ha hba hxb hbx
    obtain ⟨hocc, hcoal⟩ := (h.fits.below_iff (hq q e hxq) (by omega) e.other).mp ⟨b, hb, hbq⟩
    rw [hann q e hxq hlq hocc] at hcoal
    cases hcoal
  · intro hnone q e hxq hlq hocc
    rcases (h.fits.occupied (hq q e hxq) (by omega) e.other).mp hocc with ⟨b, hb, hbq⟩ | hc
    · refine absurd ⟨b, ⟨hb, ?_⟩, hbq.trans (ha.of_within hxq.within hlq)⟩ hnone
      rintro rfl
      exact Side.other_ne e (hbq.side_eq hxq)
    · exact hc

/-- In metadata `m` a release of block `n` has reached node `y`.  In `s`, at rest, the same has been
done, but this release has not begun. -/
structure Midway (s m : Metadata d) (top : Nat) (n y : Node d) : Prop where
  rest : s.AtRest top
  recorded : s.Records n
  books : (s.withdraw n.firstLeaf).SameBooks m
  sound : m.Sound top
  within : n.Within y
  /-- Nothing is recorded in or above the node reached, -/
  vacant : m.Vacant y
  /-- and the release is announced above it wherever nothing else is below. -/
  announced : m.tree.Announces fun a c => Held y top a c ∧ ¬ Houses m.Records a c

/-- **The first climb** of a release leaves it at its own node. -/
theorem AtRest.midway (h : s.AtRest top) (hn : s.Records n) :
    s.Midway ((s.withdraw n.firstLeaf).giveUp n top) top n n where
  rest := h
  recorded := hn
  books := ⟨rfl, rfl, rfl⟩
  sound := (h.toSound.withdraw hn).giveUp
  within := Node.within_self n
  vacant := (h.toSound.withdraw hn).vacant
  announced := by
    have hrec : ((s.withdraw n.firstLeaf).giveUp n top).Records =
        fun b => s.Records b ∧ b ≠ n :=
      funext fun b => propext (records_withdraw_iff hn)
    have hle := h.level hn
    intro a c
    rw [hrec]
    show ((s.tree.giveUp n top).get a).isCoalescing c = true ↔ _
    rw [Tree.giveUp, Tree.get_set]
    split
    · next he =>
      subst he
      simp [Held, Node.not_inHalf_self]
    · rw [Tree.isCoalescing_announce, h.quiet a c]
      constructor
      · rintro (hc | ⟨hin, hl, hann⟩)
        · cases hc
        · exact ⟨⟨hin, by omega⟩, (h.toSound.announcesTo_iff hn hin (by omega)).mp hann⟩
      · rintro ⟨⟨hin, hl⟩, hnone⟩
        exact .inr ⟨hin, by omega, (h.toSound.announcesTo_iff hn hin hl).mpr hnone⟩

namespace Midway

theorem records_iff (h : s.Midway m top n y) : m.Records b ↔ s.Records b ∧ b ≠ n := by
  rw [h.books.records]
  exact records_withdraw_iff h.recorded

/-- Recorded blocks are apart from the node reached. -/
theorem apart (h : s.Midway m top n y) (hb : m.Records b) : ¬ y.Within b ∧ ¬ b.Within y :=
  Node.block_apart_iff.mp (h.vacant b hb)

/-- No recorded block covers what is announced. -/
theorem coversNone (h : s.Midway m top n y) : m.CoversNone := by
  intro o a c e ho ha
  refine (Bool.not_eq_true _).mp fun he => ?_
  obtain ⟨⟨hin, -⟩, -⟩ := (h.announced a e).mp he
  exact (h.apart ho).1 (hin.within.trans ha.within)

/-- A vacant node can be had unless the node reached lies below it. -/
theorem available_iff (h : s.Midway m top n y) (hx : top ≤ x.level) :
    m.Available x ↔ m.Vacant x ∧ ∀ c, ¬ y.InHalf x c := by
  rw [h.sound.available_iff hx]
  refine and_congr_right fun hv => forall_congr' fun c => ?_
  rw [← Bool.not_eq_true, h.announced x c]
  refine not_congr ⟨fun hc => hc.1.1, fun hin => ⟨⟨hin, hx⟩, ?_⟩⟩
  rintro ⟨b, hb, hbin⟩
  exact not_vacant_of_within hb (.inr hbin.within) hv

/-- What was vacant before the release is vacant, and apart from the block that is released. -/
theorem vacant_iff (h : s.Midway m top n y) :
    s.Vacant x ↔ m.Vacant x ∧ x.block.Apart n.block := by
  constructor
  · exact fun hv => ⟨fun b hb => hv b (h.records_iff.mp hb).1, hv n h.recorded⟩
  · rintro ⟨hv, hn⟩ b hb
    by_cases hbn : b = n
    · exact hbn ▸ hn
    · exact hv b (h.records_iff.mpr ⟨hb, hbn⟩)

/-! ## 2. Climbing on -/

/-- Above a half in which something is recorded nothing is announced. -/
theorem quiet_of_houses (h : s.Midway m top n y) (hp : y.parent? = some p)
    (hc : (m.tree.get p).isCoalescing y.side = false) (hl : top ≤ p.level) : m.tree.Quiet := by
  have hyp := Node.inHalf_parent? hp
  have hhouse : Houses m.Records p y.side := by
    refine Classical.byContradiction fun hnone => ?_
    rw [(h.announced p y.side).mpr ⟨⟨hyp, hl⟩, hnone⟩] at hc
    cases hc
  refine fun a e => (Bool.not_eq_true _).mp fun he => ?_
  obtain ⟨hheld, hnone⟩ := (h.announced a e).mp he
  rcases (held_iff_parent? hp).mp hheld with ⟨rfl, rfl, -⟩ | ⟨hin, -⟩
  · exact hnone hhouse
  · exact hnone (hhouse.trans hin)

variable {ε : Type} {w : World d ε}

/-- **A merge** takes the announcement in the next ancestor back. -/
theorem announced_merged (h : s.Midway w.store top n y) (hp : y.parent? = some p) :
    (w.merged ⟨p, y.side⟩).store.tree.Announces fun a c =>
      Held p top a c ∧ ¬ Houses w.store.Records a c := by
  have hyp := Node.inHalf_parent? hp
  refine h.announced.set (fun c => ?_) fun a c ha => ?_
  · have hpp : ¬ Held p top p c := fun hin => Node.not_inHalf_self _ _ hin.1
    simp only [hpp, false_and, iff_false, Status.isCoalescing_unmark, Bool.and_eq_true,
      Bool.not_eq_true', decide_eq_false_iff_not]
    rintro ⟨hc, hne⟩
    exact hne (((h.announced p c).mp hc).1.1.side_eq hyp)
  · rw [held_iff_parent? hp, or_iff_right fun he => ha he.1]

/-- **The climb goes on,** if nothing else lies below that ancestor. -/
theorem merged (h : s.Midway w.store top n y) (hp : y.parent? = some p)
    (hc : (w.store.tree.get p).isCoalescing y.side = true)
    (hother : (w.store.tree.get p).isOccupied y.side.other = false) :
    s.Midway (w.merged ⟨p, y.side⟩).store top n p where
  rest := h.rest
  recorded := h.recorded
  books := h.books.trans ⟨rfl, rfl, rfl⟩
  sound := h.sound.merged (r := ⟨p, y.side⟩) hc
  within := (h.within.inHalf (Node.inHalf_parent? hp)).within
  announced := h.announced_merged hp
  vacant := by
    obtain ⟨hrec, hl, -, -⟩ := h.sound.fits.of_isCoalescing hc
    refine fun b hb => Node.block_apart_iff.mpr ⟨fun hpb => ?_, fun hbp => ?_⟩
    · exact (h.apart hb).1 ((Node.inHalf_parent? hp).within.trans hpb)
    · rcases Node.within_iff_eq_or_inHalf.mp hbp with rfl | ⟨e, hin⟩
      · exact hrec hb
      · rcases e.eq_or_eq_other y.side with rfl | rfl
        · exact (h.apart hb).2 ((Node.inHalf_parent?_iff hp).mp hin)
        · rw [(h.sound.fits.occupied hrec hl _).mpr (.inl ⟨b, hb, hin⟩)] at hother
          cases hother

/-- **The climb ends** at an ancestor whose other half is occupied. -/
theorem quiet_merged (h : s.Midway w.store top n y) (hp : y.parent? = some p)
    (hc : (w.store.tree.get p).isCoalescing y.side = true)
    (hother : (w.store.tree.get p).isOccupied y.side.other = true) :
    (w.merged ⟨p, y.side⟩).store.tree.Quiet := by
  obtain ⟨hrec, hl, -, -⟩ := h.sound.fits.of_isCoalescing hc
  have hhouse : Houses w.store.Records p y.side.other := by
    refine ((h.sound.fits.occupied hrec hl _).mp hother).resolve_right fun ho => ?_
    exact Side.other_ne _ (((h.announced p _).mp ho).1.1.side_eq (Node.inHalf_parent? hp))
  refine fun a e => (Bool.not_eq_true _).mp fun he => ?_
  obtain ⟨⟨hin, -⟩, hnone⟩ := (h.announced_merged hp a e).mp he
  exact hnone (hhouse.trans hin)

/-- The climb ends at the top level as well. -/
theorem quiet_of_level_le (h : s.Midway m top n y) (hl : y.level ≤ top) : m.tree.Quiet := by
  refine fun a e => (Bool.not_eq_true _).mp fun he => ?_
  exact not_held_of_level_le hl a e ((h.announced a e).mp he).1

/-- **When nothing is announced any more,** counting the release is all that is left to do. -/
theorem eq_giveBack (h : s.Midway m top n y) {m' : Metadata d} (hrest : m'.AtRest top)
    (hb : m.SameBooks m') : m'.discharge n = s.giveBack n top := by
  rw [giveBack]
  exact congrArg _ ((h.rest.retire h.recorded).eq hrest ((h.books.trans hb).mapTree _ id))

end Midway

/-! ## 3. The books -/

/-- Entries of different granules do not depend on each other. -/
theorem sameBooks_withdraw_enter (m : Metadata d) {leaf : Fin (2 ^ d)} (h : leaf ≠ x.firstLeaf) :
    SameBooks ((m.enter x).withdraw leaf) ((m.withdraw leaf).enter x) where
  index := Vector.set_comm _ _ fun he => h (Fin.ext he)
  live := rfl
  released := rfl

theorem sameBooks_withdraw_giveBack (m : Metadata d) {leaf : Fin (2 ^ d)}
    (h : leaf ≠ x.firstLeaf) :
    SameBooks ((m.giveBack x top).withdraw leaf) ((m.withdraw leaf).giveBack x top) where
  index := Vector.set_comm _ _ fun he => h (Fin.ext he)
  live := rfl
  released := rfl

/-- Metadata is its tree, its index and its counters. -/
theorem eq_of_count (htree : m.tree = s.tree) (hindex : m.index = s.index)
    (hcount : ∀ o, m.count o = s.count o) (hreleased : m.released = s.released) : m = s := by
  have hlive : m.live = s.live := Vector.ext fun i hi => hcount ⟨i, hi⟩
  obtain ⟨tree, index, live, released⟩ := m
  obtain ⟨tree', index', live', released'⟩ := s
  simp only at htree hindex hlive hreleased
  rw [htree, hindex, hlive, hreleased]

/-- It makes no difference when a release is counted. -/
theorem enter_discharge (m : Metadata d) (n x : Node d) :
    (m.discharge n).enter x = (m.enter x).discharge n := by
  refine eq_of_count rfl rfl (fun o => ?_) rfl
  rw [count_enter, count_discharge, count_discharge, count_enter]
  split <;> split <;> simp

theorem giveBack_discharge (m : Metadata d) (n x : Node d) (top : Nat) :
    (m.discharge n).giveBack x top = (m.giveBack x top).discharge n := by
  refine eq_of_count rfl rfl (fun o => ?_) rfl
  show (((m.withdraw x.firstLeaf).discharge n).discharge x).count o =
    (((m.withdraw x.firstLeaf).discharge x).discharge n).count o
  simp only [count_discharge]
  split <;> split <;> rfl

/-! ## 4. Others -/

namespace Midway

/-- What could be had before the release can be had. -/
theorem available_of (h : s.Midway m top n y) (hx : top ≤ x.level) (ha : s.Available x) :
    m.Available x := by
  obtain ⟨hv, hn⟩ := h.vacant_iff.mp ha.vacant
  refine (h.available_iff hx).mpr ⟨hv, fun c hin => ?_⟩
  exact (Node.block_apart_iff.mp hn).2 (h.within.trans hin.within)

/-- What can be had and does not lie within the node reached is apart from it. -/
theorem apart_of_available (h : s.Midway m top n y) (hx : top ≤ x.level) (ha : m.Available x)
    (hxy : ¬ x.Within y) : y.block.Apart x.block := by
  obtain ⟨-, hnot⟩ := (h.available_iff hx).mp ha
  refine Node.block_apart_iff.mpr ⟨fun hyx => ?_, hxy⟩
  rcases Node.within_iff_eq_or_inHalf.mp hyx with rfl | ⟨c, hin⟩
  · exact hxy (Node.within_self y)
  · exact hnot c hin

/-- Apart from the node reached is apart from the block that is released. -/
theorem apart_block (h : s.Midway m top n y) (hxy : y.block.Apart x.block) :
    x.block.Apart n.block := by
  obtain ⟨hyx, hxy⟩ := Node.block_apart_iff.mp hxy
  refine Node.block_apart_iff.mpr ⟨fun hxn => hxy (hxn.trans h.within), fun hnx => ?_⟩
  by_cases hl : x.level ≤ y.level
  · exact hyx (hnx.total h.within hl)
  · exact hxy (h.within.total hnx (by omega))

/-- **A block is taken elsewhere.**  It could have been had before the release as well, and the
release is half way up still. -/
theorem enter (hd : d ≤ maxDepth) (h : s.Midway m top n y) (hx : top ≤ x.level)
    (ha : m.Available x) (hxy : ¬ x.Within y) :
    s.Available x ∧
      ((s.withMarks x top).enter x).Midway ((m.withMarks x top).enter x) top n y := by
  have hapart := h.apart_of_available hx ha hxy
  have hxn := h.apart_block hapart
  have hs : s.Available x := (h.rest.available_iff hx).mpr (h.vacant_iff.mpr ⟨ha.vacant, hxn⟩)
  have hheld := h.sound.holding_withMarks hx ha
  have hheld' := h.rest.toSound.holding_withMarks hx hs
  have hleaf : n.firstLeaf ≠ x.firstLeaf := by
    intro he
    obtain ⟨h1, h2⟩ := Node.block_apart_iff.mp hxn
    exact (Node.within_or_within_of_firstLeaf he).elim h2 h1
  refine ⟨hs,
    { rest := ⟨hheld'.enter hd, quiet_marked h.rest.quiet⟩
      recorded := (records_enter_iff hd hheld').mpr (.inl h.recorded)
      books := ?_
      sound := hheld.enter hd
      within := h.within
      vacant := fun b hb => ?_
      announced := ?_ }⟩
  · have hbooks : SameBooks ((s.withMarks x top).withdraw n.firstLeaf) (m.withMarks x top) :=
      ⟨h.books.index, h.books.live, h.books.released⟩
    exact (sameBooks_withdraw_enter _ hleaf).trans (hbooks.enter x)
  · rcases (records_enter_iff hd hheld).mp hb with hb | rfl
    · exact h.vacant b hb
    · exact hapart
  · -- the marks withdraw the announcements in the halves in which the new block lies
    have hrec : ((m.withMarks x top).enter x).Records = fun b => m.Records b ∨ b = x :=
      funext fun b => propext (records_enter_iff hd hheld)
    rw [hrec]
    refine ((announces_marked ha.clear hx h.announced).1
      (h.sound.marked_of_available hx ha)).congr fun a c => ?_
    rw [houses_or_eq, not_or, and_assoc]
    exact and_congr_right fun hy => and_congr_right fun _ =>
      not_congr ⟨fun hin => hin.1, fun hin => ⟨hin, hy.2⟩⟩

/-- **Another block is given back.**  Its release is announced where the first one now stands alone,
and so the first one is half way up still. -/
theorem giveBack (h : s.Midway m top n y) (hb : m.Records b) :
    (s.giveBack b top).Midway (m.giveBack b top) top n y := by
  obtain ⟨hsb, hbn⟩ := h.records_iff.mp hb
  have hleaf : n.firstLeaf ≠ b.firstLeaf := fun he => hbn (h.recorded.eq hsb he).symm
  have hrec : (m.giveBack b top).Records = fun a => m.Records a ∧ a ≠ b :=
    funext fun a => propext (records_giveBack_iff hb)
  obtain ⟨hyb, hby⟩ := h.apart hb
  refine
    { rest := h.rest.giveBack hsb
      recorded := (records_giveBack_iff hsb).mpr ⟨h.recorded, hbn.symm⟩
      books := (sameBooks_withdraw_giveBack _ hleaf).trans (h.books.giveBack b top)
      sound := h.sound.giveBack hb
      within := h.within
      vacant := fun a ha => h.vacant a ((records_giveBack_iff hb).mp ha).1
      announced := fun a c => ?_ }
  have hle := h.sound.level hb
  rw [hrec, tree_giveBack, Tree.isCoalescing_retire_of_busy (h.sound.fits.busy hb) hle, Held]
  by_cases hba : b.InHalf a c
  · have hsettled : (m.tree.get a).isCoalescing c = false := h.sound.fits.settled ⟨b, hb, hba⟩
    simp only [hsettled, Bool.false_eq_true, false_and, false_or, hba, true_and]
    constructor
    · rintro ⟨hl, hnot, hann⟩
      have hnone := (h.sound.announcesTo_iff hb hba hl).mp hann
      refine ⟨⟨Classical.byContradiction fun hya => hnot fun q e hq hlq => ?_, hl⟩, hnone⟩
      refine (Bool.not_eq_true _).mp fun hocc => hya ?_
      have hcoal := hann q e hq hlq hocc
      exact ((h.announced q _).mp hcoal).1.1.trans (hba.of_within hq.within hlq)
    · rintro ⟨⟨hya, hl⟩, hnone⟩
      have hann := (h.sound.announcesTo_iff hb hba hl).mpr hnone
      refine ⟨hl, fun hmerges => ?_, hann⟩
      obtain ⟨q, e, hbq, hyq, hlq⟩ := Node.exists_branch hba hya hby hyb
      have hcoal : (m.tree.get q).isCoalescing e.other = true := by
        refine (h.announced q _).mpr ⟨⟨hyq, by omega⟩, ?_⟩
        rintro ⟨a', ha', hin⟩
        refine hnone ⟨a', ⟨ha', ?_⟩, hin.trans (hba.of_within hbq.within hlq)⟩
        rintro rfl
        exact Side.other_ne e (hin.side_eq hbq)
      have hocc := (h.sound.fits.occupied (fun hr => h.sound.apart hr hb hbq) (by omega) _).mpr
        (.inr hcoal)
      rw [hmerges q e hbq hlq] at hocc
      cases hocc
  · -- nothing changes where the block does not lie
    simp only [hba, false_and, not_false_eq_true, and_true, or_false]
    rw [h.announced a c]
    refine and_congr_right fun _ => not_congr ⟨?_, Houses.mono fun _ => And.left⟩
    rintro ⟨a', ha', hin⟩
    exact ⟨a', ⟨ha', fun he => hba (he ▸ hin)⟩, hin⟩

/-- **A block is taken from under the node reached.**  The release is over, and it is as if it had
been made just before: there, too, the block is the first one on its level that can be had. -/
theorem settle (hd : d ≤ maxDepth) (h : s.Midway m top n y) {l : Nat} (hl : top ≤ l)
    (hx : FirstIn m.Available (2 ^ l) (2 ^ (l + 1)) (some x)) (hxy : x.Within y) :
    ((m.withMarks x top).enter x).AtRest top ∧
      FirstIn (s.giveBack n top).Available (2 ^ l) (2 ^ (l + 1)) (some x) ∧
      (((s.giveBack n top).withMarks x top).enter x) =
        ((m.withMarks x top).enter x).discharge n := by
  have hxl := hx.level_eq
  have ha := hx.2.2.1
  have hrest := h.rest.giveBack h.recorded
  have hbooks : SameBooks (m.discharge n) (s.giveBack n top) :=
    (h.books.symm.mapTree id _).discharge n
  have hvacant : (s.giveBack n top).Vacant = m.Vacant := by
    unfold Vacant
    rw [hbooks.records]
    rfl
  have hfirst : FirstIn (s.giveBack n top).Available (2 ^ l) (2 ^ (l + 1)) (some x) := by
    refine hx.congr fun z hz hs => ?_
    have hzl : z.level = l := (NodeId.level_eq_iff z.pos).mpr ⟨hz, hs⟩
    rw [hrest.available_iff (by omega), h.available_iff (by omega), hvacant]
    refine and_iff_left fun c hin => ?_
    have := hin.level_lt
    have := hxy.level_le
    omega
  have hflags := (announces_marked ha.clear (by omega) h.announced).1
    (h.sound.marked_of_available (by omega) ha)
  have hquiet : (marked x top m.tree).2.Quiet := by
    refine fun a c => (Bool.not_eq_true _).mp fun hc => ?_
    obtain ⟨⟨⟨hin, hle⟩, -⟩, hnot⟩ := (hflags a c).mp hc
    exact hnot ⟨hxy.inHalf hin, hle⟩
  have hsettled : ((m.withMarks x top).enter x).AtRest top :=
    ⟨(h.sound.holding_withMarks (by omega) ha).enter hd, hquiet⟩
  have hquiet' : (marked x top (s.giveBack n top).tree).2.Quiet := quiet_marked hrest.quiet
  have hother : (((s.giveBack n top).withMarks x top).enter x).AtRest top :=
    ⟨(hrest.toSound.holding_withMarks (by omega) hfirst.2.2.1).enter hd, hquiet'⟩
  refine ⟨hsettled, hfirst, ?_⟩
  have hmarked : SameBooks ((m.withMarks x top).discharge n) ((s.giveBack n top).withMarks x top) :=
    ⟨hbooks.index, hbooks.live, hbooks.released⟩
  have hcounted : (((m.withMarks x top).enter x).discharge n).AtRest top :=
    ⟨hsettled.toSound.discharge n, hsettled.quiet⟩
  refine hcounted.eq hother ?_
  rw [← enter_discharge]
  exact hmarked.enter x

end Midway
end Metadata

/-! ## 5. Calls -/

section Calls

variable {r : Region} {m s : Metadata r.depth} {n y : Node r.depth}

/-- **A call while the release is half way up,** that does not free its address.  Either it is as if
the release had not begun, and the address is not handed out; or the release is over, and it is as
if it had been made just before the call, but for its count. -/
theorem Metadata.Midway.call (hr : r.Managed) (h : s.Midway m r.geometry.baseLevel n y) (c : Call)
    (hc : c ≠ .free (r.addressOf n)) :
    ((r.call c s).1 = (r.call c m).1 ∧ (r.call c m).1 ≠ .allocated (.ok (r.addressOf n)) ∧
      (r.call c s).2.Midway (r.call c m).2 r.geometry.baseLevel n y) ∨
    ((r.call c m).2.AtRest r.geometry.baseLevel ∧
      r.call c (s.giveBack n r.geometry.baseLevel) =
        ((r.call c m).1, (r.call c m).2.discharge n)) := by
  rcases r.call_cases m c with htakes | ⟨b, hb, rfl⟩ | ⟨address, hnone, rfl⟩
  · rcases granted_cases hr htakes with ⟨e, he⟩ | ⟨l, hl, hgranted⟩
    · rw [he, he]
      exact .inl ⟨rfl, by simp, h⟩
    · obtain ⟨found, hfirst, hcall⟩ := hgranted m h.sound h.coversNone
      obtain ⟨found', hfirst', hcall'⟩ := hgranted s h.rest.toSound h.rest.coversNone
      have hlevel : ∀ z : Node r.depth, 2 ^ l ≤ z.id → z.id < 2 ^ (l + 1) →
          r.geometry.baseLevel ≤ z.level := by
        intro z hz hs
        rwa [Node.level, (NodeId.level_eq_iff z.pos).mpr ⟨hz, hs⟩]
      cases found with
      | none =>
        have hnone : FirstIn s.Available (2 ^ l) (2 ^ (l + 1)) none :=
          fun z hz hs ha => hfirst z hz hs (h.available_of (hlevel z hz hs) ha)
        obtain rfl := hfirst'.eq hnone
        rw [hcall, hcall']
        exact .inl ⟨rfl, by simp [Region.granted], h⟩
      | some x =>
        have hx := hlevel x hfirst.1 hfirst.2.1
        by_cases hxy : x.Within y
        · obtain ⟨hrest, hfirst₁, heq⟩ := h.settle hr.depth_le hl hfirst hxy
          have hrest₁ := h.rest.giveBack h.recorded
          obtain ⟨found₁, hfound₁, hcall₁⟩ := hgranted _ hrest₁.toSound hrest₁.coversNone
          obtain rfl := hfound₁.eq hfirst₁
          rw [hcall, hcall₁]
          exact .inr ⟨hrest, Prod.ext rfl heq⟩
        · obtain ⟨ha, hmidway⟩ := h.enter hr.depth_le hx hfirst.2.2.1 hxy
          have hsome : FirstIn s.Available (2 ^ l) (2 ^ (l + 1)) (some x) := by
            refine ⟨hfirst.1, hfirst.2.1, ha, fun z hz hzx hav => ?_⟩
            have hzs : z.id < 2 ^ (l + 1) := Nat.lt_trans hzx hfirst.2.1
            exact hfirst.2.2.2 z hz hzx (h.available_of (hlevel z hz hzs) hav)
          obtain rfl := hfirst'.eq hsome
          rw [hcall, hcall']
          refine .inl ⟨rfl, fun he => ?_, hmidway⟩
          have haddress : r.addressOf x = r.addressOf n := by
            simpa [Region.granted] using he
          obtain ⟨h1, h2⟩ := Node.block_apart_iff.mp
            (h.apart_block (h.apart_of_available hx hfirst.2.2.1 hxy))
          exact (Node.within_or_within_of_firstLeaf (hr.firstLeaf_eq_of_addressOf haddress)).elim
            h1 h2
  · have hsb := (h.records_iff.mp hb).1
    rw [free_recorded hr hb (h.sound.level hb) (h.sound.isFree_of_records hb),
      free_recorded hr hsb (h.sound.level hb) (h.rest.toSound.isFree_of_records hsb)]
    exact .inl ⟨rfl, by simp, h.giveBack hb⟩
  · -- before the release no other recorded block started at the address either
    have hnone' : ∀ b, s.Records b → r.addressOf b ≠ address := by
      intro b hb he
      by_cases hbn : b = n
      · exact hc (by rw [← he, hbn])
      · exact hnone b (h.records_iff.mpr ⟨hb, hbn⟩) he
    obtain ⟨reply, -, hsame⟩ := free_cases r address
    rw [hsame m _ h.sound.toListed hnone, hsame s _ h.rest.toListed hnone']
    exact .inl ⟨rfl, by simp, h⟩

/-- **It makes no difference to others** when a release is counted. -/
theorem Metadata.AtRest.call_discharge (hr : r.Managed) (h : m.AtRest r.geometry.baseLevel)
    (n : Node r.depth) (c : Call) :
    r.call c (m.discharge n) = ((r.call c m).1, (r.call c m).2.discharge n) := by
  have h' : (m.discharge n).AtRest r.geometry.baseLevel := ⟨h.toSound.discharge n, h.quiet⟩
  rcases r.call_cases m c with htakes | ⟨b, hb, rfl⟩ | ⟨address, hnone, rfl⟩
  · rcases granted_cases hr htakes with ⟨e, he⟩ | ⟨l, hl, hgranted⟩
    · rw [he, he]
    · obtain ⟨found, hfirst, hcall⟩ := hgranted m h.toSound h.coversNone
      obtain ⟨found', hfirst', hcall'⟩ := hgranted _ h'.toSound h'.coversNone
      obtain rfl := hfirst.eq (hfirst'.congr fun z _ _ =>
        ⟨fun ha => ⟨ha.vacant, ha.clear⟩, fun ha => ⟨ha.vacant, ha.clear⟩⟩)
      rw [hcall, hcall']
      cases found with
      | none => rfl
      | some x => exact Prod.ext rfl (Metadata.enter_discharge (m.withMarks x _) n x)
  · have hfree := h.toSound.isFree_of_records hb
    rw [free_recorded hr hb (h.level hb) hfree,
      free_recorded (m := m.discharge n) hr hb (h.level hb) hfree, Metadata.giveBack_discharge]
  · obtain ⟨reply, -, hsame⟩ := free_cases r address
    rw [hsame m _ h.toListed hnone, hsame (m.discharge n) _ h'.toListed hnone]

end Calls
end BuddyTree
