/-
# Sound metadata

Metadata is *sound* if the index records blocks that do not overlap and the tree fits them.  It
need not be at rest: announcements of a release, or of a claim that is being undone, may stand
wherever no recorded block lies below.

Soundness holds whenever an operation reports, and so whenever others may come in.  In between an
operation may hold a single node that is busy but not recorded (`Holding`): a claim between its
first mark and its entry in the index, or a release between taking the entry out and clearing the
node.  With it goes every fact that does not look at the tree, if the listener keeps it
(`Standing`).

The main facts: `Sound.marked` (a claim holds its node when it is marked), `standing_release` (the
release of a node that is held succeeds and leaves sound metadata), `standing_claim` (a claim that
succeeds holds its node), and `steady_search` (so does a search).
-/
import BuddyTree.Proofs.Occupancy
import BuddyTree.Proofs.Rules

namespace BuddyTree

variable {d : Nat}

/-! ## 1. What the index records -/

namespace Metadata

/-- The index has the node at its first leaf. -/
def Records (m : Metadata d) (n : Node d) : Prop := (m.entry n.firstLeaf).toNat = n.id

/-- Every entry of the index is a node at its first leaf, no node is too high, and none lies
below another. -/
structure Listed (m : Metadata d) (top : Nat) : Prop where
  entry : ∀ leaf, (m.entry leaf).toNat ≠ 0 → ∃ n, m.Records n ∧ n.firstLeaf = leaf
  level : ∀ {n}, m.Records n → top ≤ n.level
  apart : ∀ {a b s}, m.Records a → m.Records b → ¬ b.InHalf a s

/-- The index records blocks that do not overlap, and the tree fits them. -/
structure Sound (m : Metadata d) (top : Nat) : Prop extends m.Listed top where
  fits : m.tree.Fits top m.Records (Houses m.Records)

/-- Node `n` is busy but not recorded.  It counts in its ancestors up to level `bound`, and no
recorded block lies below it or between it and there. -/
structure Holding (m : Metadata d) (top : Nat) (n : Node d) (bound : Nat) : Prop
    extends m.Listed top where
  top_le : top ≤ bound
  bound_le : bound ≤ n.level
  alone : ∀ b, m.Records b → ¬ b.Within n
  free : ∀ a s, Held n bound a s → ¬ m.Records a
  fits : m.tree.Fits top (fun a => m.Records a ∨ a = n) fun a s =>
    Houses m.Records a s ∨ Held n bound a s

variable {m : Metadata d} {top : Nat} {n : Node d} {bound : Nat}

theorem Listed.mapTree (h : m.Listed top) (f : Tree d → Tree d) : (m.mapTree f).Listed top :=
  ⟨h.entry, h.level, h.apart⟩

/-- A change of the tree takes a node in hand if the tree fits it afterwards. -/
theorem Listed.holding (h : m.Listed top) (f : Tree d → Tree d) (htop : top ≤ bound)
    (hbound : bound ≤ n.level) (halone : ∀ b, m.Records b → ¬ b.Within n)
    (hfree : ∀ a s, Held n bound a s → ¬ m.Records a)
    (hfits : (f m.tree).Fits top (fun a => m.Records a ∨ a = n) fun a s =>
      Houses m.Records a s ∨ Held n bound a s) : (m.mapTree f).Holding top n bound :=
  ⟨h.mapTree f, htop, hbound, halone, hfree, hfits⟩

/-- At most one node is recorded at a leaf. -/
theorem Records.eq {a b : Node d} (ha : m.Records a) (hb : m.Records b)
    (h : a.firstLeaf = b.firstLeaf) : a = b := by
  exact Node.ext (by rw [← ha, h, hb])

theorem Records.ne_zero {a : Node d} (ha : m.Records a) : (m.entry a.firstLeaf).toNat ≠ 0 := by
  rw [ha]
  exact Nat.ne_of_gt a.pos

/-- A change of the tree keeps soundness if the tree fits afterwards. -/
theorem Sound.mapTree (h : m.Sound top) {f : Tree d → Tree d}
    (hf : (f m.tree).Fits top m.Records (Houses m.Records)) : (m.mapTree f).Sound top :=
  ⟨h.toListed.mapTree f, hf⟩

/-- Recorded blocks do not overlap. -/
theorem Listed.within_eq (h : m.Listed top) {a b : Node d} (ha : m.Records a) (hb : m.Records b)
    (hab : b.Within a) : b = a := by
  rcases Node.within_iff_eq_or_inHalf.mp hab with he | ⟨s, hin⟩
  · exact he
  · exact absurd hin (h.apart ha hb)

/-- A side is occupied if a recorded block lies there, or for an announcement. -/
theorem Sound.isOccupied_iff (h : m.Sound top) (hn : ¬ m.Records n) (hl : top ≤ n.level)
    (s : Side) : (m.tree.get n).isOccupied s = true ↔
      (∃ b, m.Records b ∧ b.InHalf n s) ∨ (m.tree.get n).isCoalescing s = true :=
  h.fits.occupied hn hl s

/-- A node is not free if a recorded block lies within it, or for an announcement. -/
theorem Sound.isFree_eq_false_iff (h : m.Sound top) (hl : top ≤ n.level) :
    (m.tree.get n).isFree = false ↔
      (∃ b, m.Records b ∧ b.Within n) ∨ ∃ s, (m.tree.get n).isCoalescing s = true := by
  by_cases hn : m.Records n
  · rw [h.fits.busy hn]
    exact iff_of_true Status.isFree_busy (.inl ⟨n, hn, Node.within_self n⟩)
  · have hblock := h.fits.vacant hn
    simp only [Status.isFree_eq_false_iff, hblock, Bool.false_eq_true, false_or,
      h.isOccupied_iff hn hl]
    rw [exists_within_iff hn]
    exact exists_or

/-- A node that is held is not recorded. -/
theorem Holding.not_records (h : m.Holding top n bound) : ¬ m.Records n :=
  fun hn => h.alone n hn (Node.within_self n)

/-- **The entry is empty.**  Nothing is recorded at the first leaf of a node that counts in all
its ancestors. -/
theorem Holding.entry_eq_zero (h : m.Holding top n top) : m.entry n.firstLeaf = 0 := by
  by_cases hz : (m.entry n.firstLeaf).toNat = 0
  · exact UInt32.toNat_inj.mp (by rw [hz]; rfl)
  · obtain ⟨b, hb, hleaf⟩ := h.entry _ hz
    rcases Node.within_or_within_of_firstLeaf hleaf with hw | hw
    · exact absurd hw (h.alone b hb)
    · rcases Node.within_iff_eq_or_inHalf.mp hw with rfl | ⟨s, hin⟩
      · exact absurd hb h.not_records
      · exact absurd hb (h.free b s ⟨hin, h.level hb⟩)

/-! ## 2. Entering and withdrawing -/

/-- Node numbers fit an entry of the index. -/
theorem toNat_ofNat_id (hd : d ≤ maxDepth) (n : Node d) : (UInt32.ofNat n.id).toNat = n.id := by
  have hlt : n.id < 2 ^ 32 :=
    Nat.lt_of_lt_of_le n.lt (Nat.pow_le_pow_right Nat.two_pos (by unfold maxDepth at hd; omega))
  exact Nat.mod_eq_of_lt hlt

theorem records_enter_iff (hd : d ≤ maxDepth) (h : m.Holding top n top) {b : Node d} :
    (m.enter n).Records b ↔ m.Records b ∨ b = n := by
  rw [Records, entry_enter]
  split
  · next hleaf =>
    rw [toNat_ofNat_id hd]
    constructor
    · exact fun he => .inr (Node.ext he.symm)
    · rintro (hb | rfl)
      · have hne := hb.ne_zero
        rw [← hleaf, h.entry_eq_zero] at hne
        exact absurd rfl hne
      · rfl
  · next hleaf =>
    refine ⟨.inl, ?_⟩
    rintro (hb | rfl)
    · exact hb
    · exact absurd rfl hleaf

/-- **A block is entered.** -/
theorem Holding.enter (hd : d ≤ maxDepth) (h : m.Holding top n top) : (m.enter n).Sound top := by
  have hrec : (m.enter n).Records = fun b => m.Records b ∨ b = n :=
    funext fun b => propext (records_enter_iff hd h)
  refine ⟨⟨?_, ?_, ?_⟩, ?_⟩
  · intro leaf hleaf
    rw [entry_enter] at hleaf
    split at hleaf
    · next he => exact ⟨n, (records_enter_iff hd h).mpr (.inr rfl), he⟩
    · obtain ⟨b, hb, hbl⟩ := h.entry leaf hleaf
      exact ⟨b, (records_enter_iff hd h).mpr (.inl hb), hbl⟩
  · intro b hb
    rcases (records_enter_iff hd h).mp hb with hb | rfl
    · exact h.level hb
    · exact h.bound_le
  · intro a b s ha hb hin
    rcases (records_enter_iff hd h).mp ha with ha' | ha'
    · rcases (records_enter_iff hd h).mp hb with hb' | rfl
      · exact h.apart ha' hb' hin
      · exact h.free a s ⟨hin, h.level ha'⟩ ha'
    · subst ha'
      rcases (records_enter_iff hd h).mp hb with hb' | rfl
      · exact h.alone b hb' hin.within
      · exact Node.not_inHalf_self _ _ hin
  · rw [hrec]
    refine Tree.Fits.congr h.fits fun a s hl => ?_
    rw [Held, and_iff_left hl]
    exact houses_or_eq.symm

theorem records_withdraw_iff (hn : m.Records n) {b : Node d} :
    (m.withdraw n.firstLeaf).Records b ↔ m.Records b ∧ b ≠ n := by
  rw [Records, entry_withdraw]
  split
  · next hleaf =>
    refine iff_of_false (fun hz => absurd hz.symm (Nat.ne_of_gt b.pos)) ?_
    rintro ⟨hb, hne⟩
    exact hne (hb.eq hn hleaf.symm)
  · next hleaf =>
    refine ⟨fun hb => ⟨hb, ?_⟩, And.left⟩
    rintro rfl
    exact hleaf rfl

/-- **A block is taken out.** -/
theorem Sound.withdraw (h : m.Sound top) (hn : m.Records n) :
    (m.withdraw n.firstLeaf).Holding top n top := by
  have hrec : ∀ {b}, (m.withdraw n.firstLeaf).Records b ↔ m.Records b ∧ b ≠ n :=
    records_withdraw_iff hn
  have hor : ∀ a, m.Records a ↔ (m.withdraw n.firstLeaf).Records a ∨ a = n := by
    intro a
    rw [hrec]
    by_cases ha : a = n
    · simp [ha, hn]
    · simp [ha]
  refine ⟨⟨?_, ?_, ?_⟩, Nat.le_refl _, h.level hn, ?_, ?_, ?_⟩
  · intro leaf hleaf
    rw [entry_withdraw] at hleaf
    split at hleaf
    · exact absurd rfl hleaf
    · next hne =>
      obtain ⟨b, hb, hbl⟩ := h.entry leaf hleaf
      exact ⟨b, hrec.mpr ⟨hb, fun he => hne (he ▸ hbl)⟩, hbl⟩
  · exact fun hb => h.level (hrec.mp hb).1
  · exact fun ha hb => h.apart (hrec.mp ha).1 (hrec.mp hb).1
  · intro b hb hin
    obtain ⟨hb, hne⟩ := hrec.mp hb
    exact hne (h.within_eq hn hb hin)
  · intro a s ha hr
    exact h.apart (hrec.mp hr).1 hn ha.1
  · refine (h.fits.congr_blocks hor).congr fun a s hl => ?_
    rw [Held, and_iff_left hl, ← houses_or_eq]
    exact ⟨Houses.mono fun b hb => (hor b).mp hb, Houses.mono fun b hb => (hor b).mpr hb⟩

/-! ## 3. Marking a claim -/

/-- The tree after the marks of a claim of `n`, and what refused them. -/
def marked (n : Node d) (top : Nat) (t : Tree d) : Option (Node d) × Tree d :=
  (t.set n .busy).markPath (n.climb (n.level - top))

/-- The metadata with these marks. -/
def withMarks (n : Node d) (top : Nat) (m : Metadata d) : Metadata d :=
  m.mapTree fun t => (marked n top t).2

/-- **Marks.**  A claim of a node whose byte is clear holds the node when its marks are made.  If
they were refused, then by a recorded block above the node, and they count up to there only. -/
theorem Sound.marked (h : m.Sound top) (hn : top ≤ n.level) (hclear : m.tree.get n = .clear) :
    ((marked n top m.tree).1 = none →
      (m.withMarks n top).Holding top n top) ∧
    (∀ o, (marked n top m.tree).1 = some o → m.Records o ∧ (∃ s, n.InHalf o s) ∧
      (m.withMarks n top).Holding top n (o.level + 1)) := by
  obtain ⟨hrec, hbelow⟩ := h.fits.of_clear hclear hn
  have halone : ∀ b, m.Records b → ¬ b.Within n := by
    intro b hb hin
    rcases Node.within_iff_eq_or_inHalf.mp hin with rfl | ⟨s, hin⟩
    · exact hrec hb
    · exact hbelow s ⟨b, hb, hin⟩
  have hbusy : (m.tree.set n .busy).Fits top (fun a => m.Records a ∨ a = n)
      fun a s => Houses m.Records a s ∨ Held n n.level a s :=
    (h.fits.claim hn).congr fun a s _ =>
      (or_iff_left (not_held_of_level_le (Nat.le_refl _) a s)).symm
  obtain ⟨hfree, howned⟩ := Tree.fits_markPath (k := n.level - top) (Node.within_self n)
    (Nat.sub_le _ _) (by omega) hbusy
  rw [Nat.sub_sub_self hn] at hfree howned
  -- only nodes above `n` were marked, so what is no block now was none before
  have hnot : ∀ {bound : Nat},
      (∀ a s, Held n bound a s → a.level < n.level → ¬ (m.Records a ∨ a = n)) →
      ∀ a s, Held n bound a s → ¬ m.Records a :=
    fun hlow a s ha hr => hlow a s ha ha.1.level_lt (.inl hr)
  refine ⟨fun hnone => ?_, fun o hsome => ?_⟩
  · obtain ⟨hfit, hlow⟩ := hfree _ (Prod.ext hnone rfl)
    exact h.toListed.holding (fun t => (Metadata.marked n top t).2) (Nat.le_refl _) hn halone
      (hnot hlow) hfit
  · obtain ⟨ho, hin, hlt, hle, hfit, hlow⟩ := howned o _ (Prod.ext hsome rfl)
    refine ⟨ho.resolve_right ?_, hin, ?_⟩
    · rintro rfl
      exact Nat.lt_irrefl _ hlt
    · exact h.toListed.holding (fun t => (Metadata.marked n top t).2) (by omega) (by omega) halone
        (hnot hlow) hfit

end Metadata

/-! ## 4. Releases and claims -/

variable {ε : Type} {obs : Observer d ε} {E : ε → Prop} {top : Nat}

/-- The metadata is sound, and the listener is in a state of a certain kind. -/
def Steady (top : Nat) (E : ε → Prop) (w : World d ε) : Prop := w.store.Sound top ∧ E w.env

/-- A merge keeps soundness. -/
theorem Metadata.Sound.merged {w : World d ε} (h : w.store.Sound top) {r : Node.Rung d}
    (hc : (w.store.tree.get r.node).isCoalescing r.child = true) :
    (w.merged r).store.Sound top :=
  h.mapTree (f := (·.set r.node ((w.store.tree.get r.node).unmark r.child)))
    (h.fits.merge_step hc)

/-- The fact does not look at the tree. -/
def TreeBlind (B : World d ε → Prop) : Prop := ∀ w f, B w → B (w.mapStore (.mapTree f))

/-- The metadata is sound, and so is something that does not look at the tree. -/
def Standing (top : Nat) (B : World d ε → Prop) (w : World d ε) : Prop := w.store.Sound top ∧ B w

/-- The listener does not see the tree. -/
theorem treeBlind_env (E : ε → Prop) : TreeBlind fun w : World d ε => E w.env :=
  fun _ _ h => h

theorem standing_merge {B : World d ε → Prop} (hB : TreeBlind B) (hobs : obs.Keeps (Standing top B))
    (path : List (Node.Rung d)) {w : World d ε} (h : Standing top B w) :
    Standing top B (merge obs path w) :=
  merge_rule hobs (fun _ _ _ hw hc => ⟨hw.1.merged hc, hB _ _ hw.2⟩) h

theorem steady_merge (hobs : obs.Keeps (Steady top E)) (path : List (Node.Rung d))
    {w : World d ε} (h : Steady top E w) : Steady top E (merge obs path w) :=
  standing_merge (treeBlind_env E) hobs path h

/-- What is left of the tree when the first climb of a release has announced it and its node is
cleared. -/
def Tree.giveUp (t : Tree d) (n : Node d) (bound : Nat) : Tree d :=
  (t.announce (n.climb (n.level - bound))).set n .clear

/-- The metadata with that tree. -/
def Metadata.giveUp (n : Node d) (bound : Nat) (m : Metadata d) : Metadata d :=
  m.mapTree fun t => t.giveUp n bound

/-- **The first climb** of a release of a node that is held leaves sound metadata. -/
theorem Metadata.Holding.giveUp {m : Metadata d} {n : Node d} {bound : Nat}
    (h : m.Holding top n bound) : (m.giveUp n bound).Sound top := by
  have hfree : ∀ a s, Held n bound a s → ¬ (m.Records a ∨ a = n) := by
    rintro a s ha (hr | rfl)
    · exact h.free a s ha hr
    · exact Node.not_inHalf_self _ _ ha.1
  have hann := Tree.fits_announce (k := n.level - bound) (by have := h.bound_le; omega) h.top_le
    (fun b hb => .inl hb) hfree h.alone h.fits
  refine ⟨h.toListed.mapTree fun t => t.giveUp n bound, hann.clear h.not_records ?_⟩
  rintro s ⟨b, hb, hin⟩
  exact h.alone b hb hin.within

/-- **The second climb** begins from there, and the release of a node that is held succeeds. -/
theorem Metadata.Holding.release_eq (obs : Observer d ε) {n : Node d} {bound : Nat} {w : World d ε}
    (h : w.store.Holding top n bound) :
    release obs n bound w = (true, merge obs (n.climb (n.level - bound))
      (w.mapStore (.giveUp n bound))) := by
  have hbusy : (w.store.tree.get n).isFree = false := by
    rw [h.fits.busy (.inr rfl)]
    exact Status.isFree_busy
  rw [release, hbusy, mergeHeight_of_le h.bound_le]
  rfl

/-- **A release succeeds.**  A node that is held is given up, and what is left is sound. -/
theorem standing_release {B : World d ε → Prop} (hB : TreeBlind B)
    (hobs : obs.Keeps (Standing top B)) {n : Node d} {bound : Nat} {w : World d ε}
    (h : w.store.Holding top n bound) (hw : B w) :
    (release obs n bound w).1 = true ∧ Standing top B (release obs n bound w).2 := by
  rw [h.release_eq obs]
  exact ⟨rfl, standing_merge hB hobs _ ⟨h.giveUp, hB _ _ hw⟩⟩

theorem steady_release (hobs : obs.Keeps (Steady top E)) {n : Node d} {bound : Nat}
    {w : World d ε} (h : w.store.Holding top n bound) (hE : E w.env) :
    (release obs n bound w).1 = true ∧ Steady top E (release obs n bound w).2 :=
  standing_release (treeBlind_env E) hobs h hE

/-- What a claim does, in terms of its marks. -/
theorem claim_eq (obs : Observer d ε) {n : Node d} {top : Nat} {w : World d ε}
    (hclear : w.store.tree.get n = .clear) :
    claim obs n top w =
      let w' := w.mapStore (.withMarks n top)
      match (Metadata.marked n top w.store.tree).1 with
      | none => (none, w')
      | some o => (some o, (release obs n (o.level + 1) w').2) := by
  have hon : w.onTree (Metadata.marked n top) = ((Metadata.marked n top w.store.tree).1,
      w.mapStore (.withMarks n top)) := rfl
  unfold Metadata.marked at hon ⊢
  rw [claim, if_pos hclear]
  dsimp only
  rw [hon]
  cases (Tree.markPath (w.store.tree.set n .busy) (n.climb (n.level - top))).1 <;> rfl

/-- **A claim,** in terms of its marks: it succeeds with them, or gives them up again. -/
theorem claim_rule {P : World d ε → Prop} {Q : Node d → World d ε → Prop} {n : Node d}
    (hnone : ∀ w, P w → w.store.tree.get n = .clear →
      (Metadata.marked n top w.store.tree).1 = none → Q n (w.mapStore (.withMarks n top)))
    (hsome : ∀ w o, P w → w.store.tree.get n = .clear →
      (Metadata.marked n top w.store.tree).1 = some o →
      P (release obs n (o.level + 1) (w.mapStore (.withMarks n top))).2) :
    Claims obs top P Q n := by
  intro w h
  by_cases hclear : w.store.tree.get n = .clear
  · rw [claim_eq obs hclear]
    cases hm : (Metadata.marked n top w.store.tree).1 with
    | none =>
      refine ⟨?_, ?_⟩
      · rintro w' ⟨⟩
        exact hnone w h hclear hm
      · rintro o w' ⟨⟩
    | some o =>
      refine ⟨?_, ?_⟩
      · rintro w' ⟨⟩
      · rintro o' w' ⟨⟩
        exact hsome w o h hclear hm
  · rw [claim, if_neg hclear]
    refine ⟨?_, ?_⟩
    · rintro w' ⟨⟩
    · rintro o w' ⟨⟩
      exact h

/-- **A claim** that succeeds holds its node, and one that is refused leaves sound metadata. -/
theorem standing_claim {B : World d ε → Prop} (hB : TreeBlind B) (hobs : obs.Keeps (Standing top B))
    {n : Node d} (hn : top ≤ n.level) :
    Claims obs top (Standing top B) (fun n w => w.store.Holding top n top ∧ B w) n := by
  refine claim_rule (fun w h hclear hm => ?_) fun w o h hclear hm => ?_
  · exact ⟨(h.1.marked hn hclear).1 hm, hB _ _ h.2⟩
  · obtain ⟨-, -, hheld⟩ := (h.1.marked hn hclear).2 o hm
    exact (standing_release (w := w.mapStore (.withMarks n top)) hB hobs hheld (hB _ _ h.2)).2

theorem steady_claim (hobs : obs.Keeps (Steady top E)) {n : Node d} (hn : top ≤ n.level) :
    Claims obs top (Steady top E) (fun n w => w.store.Holding top n top ∧ E w.env) n :=
  standing_claim (treeBlind_env E) hobs hn

/-- **A search** that succeeds holds its node. -/
theorem steady_search (hobs : obs.Keeps (Steady top E)) {order : Nat} (ho : top ≤ d - order)
    {w : World d ε} (h : Steady top E w) :
    Ended (Steady top E) (fun n w => w.store.Holding top n top ∧ E w.env)
      (search obs top order w) :=
  search_rule hobs (fun _ hn => steady_claim hobs (by omega)) h

end BuddyTree
