/-
# Announcements that nobody takes back

Other flags than coalescing ones hardly ever depend on those.  The climbs of a call test them, but
what a climb does because of one is only to announce more.  The one exception is a claim, which is
made only where the whole byte is clear.

So metadata may *overlay* other metadata: the books are the same, and the bytes differ in coalescing
flags only.  What a call does to metadata that overlays metadata at rest overlays what a claim, a
release or a refusal makes of the latter; a refused claim announces nothing that was not announced.
If moreover each announcement stands beside its occupied flag, a free byte is clear, and the call
finds the same node as at rest.

The main facts: `Overlays.claim_none` and `Overlays.claim_some` (claims), `Overlays.take` and
`Overlays.giveBack` (calls, wherever something is announced), and `Overlays.calls` (histories, if
each announcement stands beside its occupied flag).
-/
import BuddyTree.Audit
import BuddyTree.Proofs.Answers

namespace BuddyTree

variable {d : Nat}

/-! ## 1. Trees in the same use -/

namespace Tree

/-- The bytes of two trees differ in coalescing flags only. -/
def SameUse (t u : Tree d) : Prop := ∀ n, (t.get n).settled = (u.get n).settled

/-- Off the climb nothing is marked. -/
theorem get_markPath_of_not_mem {t : Tree d} {path : List (Node.Rung d)} {a : Node d}
    (h : ∀ r ∈ path, r.node ≠ a) : (t.markPath path).2.get a = t.get a := by
  induction path generalizing t with
  | nil => rfl
  | cons r rest ih =>
    unfold markPath
    dsimp only
    split
    · rfl
    · rw [ih fun s hs => h s (List.mem_cons_of_mem r hs), get_set_ne _ (h r List.mem_cons_self)]

/-- No mark is taken back. -/
theorem isOccupied_markPath {t : Tree d} {path : List (Node.Rung d)} {a : Node d} {s : Side}
    (h : (t.get a).isOccupied s = true) : ((t.markPath path).2.get a).isOccupied s = true := by
  induction path generalizing t with
  | nil => exact h
  | cons r rest ih =>
    unfold markPath
    dsimp only
    split
    · exact h
    · refine ih ?_
      rw [get_set]
      split
      · next he => simp [he, h]
      · exact h

namespace SameUse

variable {t u : Tree d} {n : Node d}

theorem refl (t : Tree d) : t.SameUse t :=
  fun _ => rfl

theorem symm (h : t.SameUse u) : u.SameUse t :=
  fun n => (h n).symm

theorem trans {v : Tree d} (h : t.SameUse u) (h' : u.SameUse v) : t.SameUse v :=
  fun n => (h n).trans (h' n)

theorem has_block (h : t.SameUse u) (n : Node d) :
    (t.get n).has .block = (u.get n).has .block :=
  (Status.settled_eq_settled_iff.mp (h n)).1 .block nofun

theorem isOccupied (h : t.SameUse u) (n : Node d) (s : Side) :
    (t.get n).isOccupied s = (u.get n).isOccupied s :=
  (Status.settled_eq_settled_iff.mp (h n)).1 (.occupied s) nofun

theorem isFree (h : t.SameUse u) (n : Node d) : (t.get n).isFree = (u.get n).isFree := by
  rw [← Status.isFree_settled, h n, Status.isFree_settled]

theorem plain (h : t.SameUse u) (hu : (u.get n).Plain) : (t.get n).Plain :=
  fun i hi => ((Status.settled_eq_settled_iff.mp (h n)).2 i hi).trans (hu i hi)

theorem mergesTo_iff (h : t.SameUse u) {l : Nat} : t.MergesTo n l ↔ u.MergesTo n l := by
  simp only [MergesTo, h.isOccupied]

theorem set (h : t.SameUse u) (n : Node d) {v v' : Status} (hv : v.settled = v'.settled) :
    (t.set n v).SameUse (u.set n v') := by
  intro a
  rw [get_set, get_set]
  split
  · exact hv
  · exact h a

theorem set_left (h : t.SameUse u) {v : Status} (hv : v.settled = (u.get n).settled) :
    (t.set n v).SameUse u := by
  intro a
  rw [get_set]
  split
  · next he => exact he ▸ hv
  · exact h a

/-- **Marks.**  They are refused by the same node. -/
theorem markPath (h : t.SameUse u) (path : List (Node.Rung d)) :
    (t.markPath path).1 = (u.markPath path).1 ∧
      (t.markPath path).2.SameUse (u.markPath path).2 := by
  induction path generalizing t u with
  | nil => exact ⟨rfl, h⟩
  | cons r rest ih =>
    unfold Tree.markPath
    dsimp only
    rw [h.has_block]
    split
    · exact ⟨rfl, h⟩
    · refine ih (h.set r.node (Status.settled_mark_congr ?_ _))
      rw [Status.settled_withdraw, Status.settled_withdraw, h]

/-- To announce changes nothing else. -/
theorem announce (h : t.SameUse u) (path : List (Node.Rung d)) : (t.announce path).SameUse u := by
  induction path generalizing t with
  | nil => exact h
  | cons r rest ih =>
    have hset := h.set_left (n := r.node) ((Status.settled_announce _ r.child).trans (h r.node))
    unfold Tree.announce
    dsimp only
    split
    · exact hset
    · exact ih hset

/-- **A release** goes equally far, and only what it announces above may differ. -/
theorem unwind (h : t.SameUse u) (path : List (Node.Rung d)) :
    (t.unwind path).SameUse (u.unwind path) := by
  induction path generalizing t u with
  | nil => exact h
  | cons r rest ih =>
    have hset := h.set r.node (Status.settled_unmark_congr (h r.node) r.child)
    unfold Tree.unwind
    dsimp only
    rw [h.isOccupied]
    split
    · have hleft : ∀ {t' u' : Tree d}, t'.SameUse u' → ∀ b : Bool,
          (if b then t'.announce rest else t').SameUse u' := by
        intro t' u' h' b
        cases b
        · exact h'
        · exact h'.announce rest
      exact hleft (hleft hset.symm _).symm _
    · exact ih hset

theorem retire (h : t.SameUse u) (n : Node d) (bound : Nat) :
    (t.retire n bound).SameUse (u.retire n bound) :=
  (h.set n rfl).unwind _

theorem marked (h : t.SameUse u) (n : Node d) (top : Nat) :
    (Metadata.marked n top t).1 = (Metadata.marked n top u).1 ∧
      (Metadata.marked n top t).2.SameUse (Metadata.marked n top u).2 :=
  (h.set n rfl).markPath _

end SameUse

/-- Settling changes coalescing flags only. -/
theorem sameUse_settled (t : Tree d) : t.settled.SameUse t :=
  fun n => by rw [get_settled, Status.settled_settled]

/-- What is announced in one tree is announced in the other. -/
def AnnouncesIn (t u : Tree d) : Prop :=
  ∀ a s, (t.get a).isCoalescing s = true → (u.get a).isCoalescing s = true

/-- Each announcement stands beside its occupied flag. -/
def Beside (t : Tree d) : Prop :=
  ∀ a s, (t.get a).isCoalescing s = true → (t.get a).isOccupied s = true

end Tree

/-! ## 2. Overlays -/

namespace Metadata

/-- The books are the same, and the bytes differ in coalescing flags only. -/
structure Overlays (m ref : Metadata d) : Prop where
  books : SameBooks ref m
  tree : m.tree.SameUse ref.tree

variable {m ref : Metadata d} {top bound : Nat} {n f : Node d}

/-- Between a node that is held and the block that refused its claim nothing else is below, so the
claim is undone all the way. -/
theorem Holding.mergesTo {o : Node d} (h : m.Holding top n (o.level + 1)) (hq : m.tree.Quiet)
    (ho : m.Records o) (hin : n.Within o) {l : Nat} (hl : o.level < l) : m.tree.MergesTo n l := by
  intro q e hqe hlq
  obtain ⟨s, hqo⟩ := (hin.total hqe.within (by omega)).exists_inHalf (by omega)
  have htop := h.top_le
  have hblock : ¬ (m.Records q ∨ q = n) := by
    rintro (hr | rfl)
    · exact h.apart ho hr hqo
    · exact Node.not_inHalf_self _ _ hqe
  refine (Bool.not_eq_true _).mp fun hocc => ?_
  rcases (h.fits.occupied hblock (by omega) e.other).mp hocc with (⟨b, hb, hbq⟩ | ⟨hnq, -⟩) | hc
  · exact h.apart ho hb (hbq.trans hqo)
  · exact Side.other_ne e (hnq.side_eq hqe)
  · rw [hq q e.other] at hc
    cases hc

namespace Overlays

theorem refl (m : Metadata d) : m.Overlays m :=
  ⟨.refl m, .refl _⟩

theorem mapTree (h : m.Overlays ref) {f g : Tree d → Tree d}
    (hfg : (f m.tree).SameUse (g ref.tree)) : (m.mapTree f).Overlays (ref.mapTree g) :=
  ⟨h.books.mapTree g f, hfg⟩

theorem withMarks (h : m.Overlays ref) (n : Node d) (top : Nat) :
    (m.withMarks n top).Overlays (ref.withMarks n top) :=
  h.mapTree (h.tree.marked n top).2

theorem retire (h : m.Overlays ref) (n : Node d) (bound : Nat) :
    (m.mapTree (·.retire n bound)).Overlays (ref.mapTree (·.retire n bound)) :=
  h.mapTree (h.tree.retire n bound)

theorem announce (h : m.Overlays ref) (path : List (Node.Rung d)) :
    (m.mapTree (·.announce path)).Overlays ref :=
  ⟨h.books.mapTree id _, h.tree.announce path⟩

theorem enter (h : m.Overlays ref) (n : Node d) : (m.enter n).Overlays (ref.enter n) :=
  ⟨h.books.enter n, h.tree⟩

theorem giveBack (h : m.Overlays ref) (n : Node d) (top : Nat) :
    (m.giveBack n top).Overlays (ref.giveBack n top) :=
  ⟨h.books.giveBack n top, h.tree.retire n top⟩

theorem records_iff (h : m.Overlays ref) : m.Records n ↔ ref.Records n := by
  rw [h.books.records]

theorem listed (h : m.Overlays ref) (href : ref.Listed top) : m.Listed top := by
  have hrec := h.books.records
  refine ⟨fun leaf hleaf => ?_, fun hn => ?_, fun ha hb => ?_⟩
  · rw [h.books.entry] at hleaf
    rw [hrec]
    exact href.entry leaf hleaf
  · rw [hrec] at hn
    exact href.level hn
  · rw [hrec] at ha hb
    exact href.apart ha hb

/-- A byte that is clear is clear at rest. -/
theorem clear (h : m.Overlays ref) (href : ref.AtRest top) (hn : m.tree.get n = .clear) :
    ref.tree.get n = .clear := by
  refine href.clear_of_isFree ?_
  rw [← h.tree.isFree, hn]
  rfl

end Overlays

/-! ## 3. Claims on overlays -/

/-- **A claim that nobody interferes with** leaves its marks, or retires its node again up to what
refused it. -/
theorem claim_alone (hclear : m.tree.get n = .clear) :
    claim (silent d) n top ⟨m, ()⟩ =
      match (marked n top m.tree).1 with
      | none => (none, ⟨m.withMarks n top, ()⟩)
      | some o => (some o, ⟨(m.withMarks n top).mapTree (·.retire n (o.level + 1)), ()⟩) := by
  rw [claim_eq (silent d) (w := ⟨m, ()⟩) hclear]
  cases hm : (marked n top m.tree).1 with
  | none => rfl
  | some o =>
    obtain ⟨r, hr, rfl⟩ := mem_of_markPath_eq_some hm
    have hlt := (Node.mem_climb_iff.mp hr).1.level_lt
    have hbusy : (m.withMarks n top).tree.get n = .busy := by
      refine (Tree.get_markPath_of_not_mem fun r => Node.ne_of_mem_climb).trans ?_
      exact Tree.get_set_self _ _ _
    have hrelease := (release_alone letsPass_silent hlt (w := ⟨m.withMarks n top, ()⟩)
      (by rw [hbusy]; exact Status.isFree_busy)).2
    exact congrArg (fun store => (some r.node, (⟨store, ()⟩ : World d Unit))) hrelease

namespace Overlays

/-- **A claim that succeeds** would at rest, too. -/
theorem claim_none (h : m.Overlays ref) (href : ref.AtRest top) (hn : top ≤ n.level)
    {w : World d Unit} (hc : claim (silent d) n top ⟨m, ()⟩ = (none, w)) :
    ref.Available n ∧ w.store = m.withMarks n top := by
  by_cases hclear : m.tree.get n = .clear
  · rw [claim_alone hclear] at hc
    cases hm : (marked n top m.tree).1 with
    | some o => simp [hm] at hc
    | none =>
      simp only [hm] at hc
      obtain rfl := (Prod.mk.inj hc).2
      rw [(h.tree.marked n top).1] at hm
      have hheld := (href.toSound.marked hn (h.clear href hclear)).1 hm
      exact ⟨⟨hheld.vacant, h.clear href hclear⟩, rfl⟩
  · rw [claim, if_neg hclear] at hc
    cases (Prod.mk.inj hc).1

/-- **A claim that is refused** has met something in the byte of the node itself, or a recorded
block that the node lies within.  Nothing in use has changed, and nothing is announced that was
not announced before. -/
theorem claim_some (h : m.Overlays ref) (href : ref.AtRest top) (hn : top ≤ n.level)
    {w : World d Unit} (hc : claim (silent d) n top ⟨m, ()⟩ = (some f, w)) :
    (w.store.Overlays ref ∧ w.store.tree.AnnouncesIn m.tree) ∧
      ((n = f ∧ m.tree.get n ≠ .clear) ∨ (ref.Records f ∧ n.Within f)) := by
  by_cases hclear : m.tree.get n = .clear
  · have hclearRef := h.clear href hclear
    obtain ⟨hsame, hmarks⟩ := h.tree.marked n top
    rw [claim_alone hclear] at hc
    cases hm : (marked n top m.tree).1 with
    | none => simp [hm] at hc
    | some o =>
      simp only [hm] at hc
      obtain ⟨hf, rfl⟩ := Prod.mk.inj hc
      obtain rfl : o = f := Option.some.inj hf
      have hmref : (marked n top ref.tree).1 = some o := hsame.symm.trans hm
      obtain ⟨hrec, ⟨s, hin⟩, hheld⟩ := (href.toSound.marked hn hclearRef).2 o hmref
      -- at rest such a claim leads back to where it began
      have hback : (ref.withMarks n top).mapTree (·.retire n (o.level + 1)) = ref := by
        have hcref : claim (silent d) n top ⟨ref, ()⟩ = _ := claim_alone hclearRef
        simp only [hmref] at hcref
        exact (href.toSound.claim_some href.coversNone hn hclearRef hcref).1
      have hover := (h.withMarks n top).retire n (o.level + 1)
      rw [hback] at hover
      refine ⟨⟨hover, fun a c he => ?_⟩, .inr ⟨hrec, hin.within⟩⟩
      rcases (Tree.isCoalescing_retire hheld.bound_le).mp he with ⟨⟨-, hold⟩, -⟩ | ⟨hnew, hnot, -⟩
      · exact isCoalescing_of_marked hold
      · refine absurd (hmarks.mergesTo_iff.mpr ?_) hnot
        exact hheld.mergesTo (quiet_marked href.quiet) hrec hin.within hnew.2
  · rw [claim, if_neg hclear] at hc
    obtain ⟨hf, rfl⟩ := Prod.mk.inj hc
    exact ⟨⟨h, fun _ _ => id⟩, .inl ⟨Option.some.inj hf, hclear⟩⟩

/-- **A search** takes a node that can be had at rest, or changes nothing in use. -/
theorem search (h : m.Overlays ref) (href : ref.AtRest top) {order : Nat} (ho : top ≤ d - order) :
    Ended (fun w => w.store.Overlays ref ∧ w.store.tree.AnnouncesIn m.tree)
      (fun n w => (top ≤ n.level ∧ ref.Available n) ∧ w.store.Overlays (ref.withMarks n top))
      (BuddyTree.search (silent d) top order ⟨m, ()⟩) := by
  refine search_rule (keeps_silent _) (fun n hn w hw => ⟨fun w' hc => ?_, fun f w' hc => ?_⟩)
    ⟨h, fun _ _ => id⟩
  · obtain ⟨ha, hstore⟩ := hw.1.claim_none href (by omega) hc
    exact ⟨⟨by omega, ha⟩, hstore ▸ hw.1.withMarks n top⟩
  · obtain ⟨⟨hover, hann⟩, -⟩ := hw.1.claim_some href (by omega) hc
    exact ⟨hover, fun a s he => hw.2 a s (hann a s he)⟩

/-! ## 4. Announcements beside their occupied flags -/

theorem beside_of_announcesIn {m' : Metadata d} (h : m.Overlays ref) (h' : m'.Overlays ref)
    (hm : m.tree.Beside) (hann : m'.tree.AnnouncesIn m.tree) : m'.tree.Beside := by
  intro a s hc
  rw [h'.tree.isOccupied, ← h.tree.isOccupied]
  exact hm a s (hann a s hc)

/-- Then a byte is clear if its node is free. -/
theorem clear_of_isFree (h : m.Overlays ref) (href : ref.AtRest top) (hm : m.tree.Beside)
    (hfree : (m.tree.get n).isFree = true) : m.tree.get n = .clear := by
  obtain ⟨hblock, hocc⟩ := (Status.isFree_iff _).mp hfree
  refine (h.tree.plain (href.fits.plain n)).ext Status.plain_clear ?_
  rintro (_ | c | c)
  · rw [hblock, Status.has_clear]
  · exact (hocc c).trans (Status.has_clear _).symm
  · refine ((Bool.not_eq_true _).mp fun hc => ?_).trans (Status.has_clear _).symm
    have := hm n c hc
    rw [hocc c] at this
    cases this

theorem beside_withMarks (hm : m.tree.Beside) : (m.withMarks n top).tree.Beside := by
  intro a s hc
  refine Tree.isOccupied_markPath ?_
  rw [Tree.get_set]
  split
  · cases s <;> rfl
  · exact hm a s (isCoalescing_of_marked hc)

/-- **Claims** find and leave announcements beside their occupied flags. -/
theorem scans (href : ref.AtRest top) {l : Nat} (hl : top ≤ l) :
    Scans top l ref.Vacant (fun m => m.Overlays ref ∧ m.tree.Beside)
      fun n m => m.Overlays (ref.withMarks n top) ∧ m.tree.Beside where
  busy := by
    rintro m n ⟨h, -⟩ hn hfree hv
    rw [h.tree.isFree] at hfree
    rcases (href.isFree_eq_false_iff (by omega)).mp hfree with ⟨b, hb, hin⟩ | ⟨c, hc⟩
    · exact not_vacant_of_within hb (.inr hin) hv
    · rw [href.quiet n c] at hc
      cases hc
  taken := by
    rintro m n w ⟨h, hm⟩ hn hc
    obtain ⟨ha, hstore⟩ := h.claim_none href (by omega) hc
    rw [hstore]
    exact ⟨ha.vacant, h.withMarks n top, beside_withMarks hm⟩
  refused := by
    rintro m n f w ⟨h, hm⟩ hn hfree hc
    obtain ⟨⟨hover, hann⟩, ⟨-, hbyte⟩ | ⟨hrec, -⟩⟩ := h.claim_some href (by omega) hc
    · exact absurd (h.clear_of_isFree href hm hfree) hbyte
    · exact ⟨⟨hover, h.beside_of_announcesIn hover hm hann⟩,
        fun x _ hx => not_vacant_of_within hrec (.inl hx)⟩

/-- **A release** of a recorded block does so, too. -/
theorem beside_giveBack (h : m.Overlays ref) (href : ref.AtRest top) (hm : m.tree.Beside)
    (hn : ref.Records n) : (m.giveBack n top).tree.Beside := by
  have hle := href.level hn
  intro a s hc
  rw [tree_giveBack] at hc ⊢
  rw [Tree.isOccupied_retire hle]
  rcases (Tree.isCoalescing_retire hle).mp hc with ⟨⟨hne, hold⟩, hkept⟩ | ⟨hheld, hnot, -⟩
  · exact ⟨⟨hne, hm a s hold⟩, hkept⟩
  · -- the side on which a recorded block lies is occupied
    have hblock : ¬ ref.Records a := fun ha => href.apart ha hn hheld.1
    refine ⟨⟨fun he => Node.not_inHalf_self _ _ (he ▸ hheld.1), ?_⟩, fun hmerges => hnot hmerges.2⟩
    rw [h.tree.isOccupied]
    exact (href.fits.occupied hblock hheld.2 s).mpr (.inl ⟨n, hn, hheld.1⟩)

end Overlays

end Metadata

/-! ## 5. Calls -/

section Calls

variable {r : Region} {m ref : Metadata r.depth} {n : Node r.depth}

namespace Metadata.Overlays

/-- **Taking a block,** wherever something is announced: it fails and nothing in use changes, or a
node is entered that can be had at rest. -/
theorem take (hr : r.Managed) (h : m.Overlays ref) (href : ref.AtRest r.geometry.baseLevel)
    {c : Call} (hc : c.Takes) :
    (∃ e, (r.call c m).1 = .allocated (.error e) ∧ (r.call c m).2.Overlays ref ∧
      (r.call c m).2.tree.AnnouncesIn m.tree) ∨
    ∃ n, (r.geometry.baseLevel ≤ n.level ∧ ref.Available n) ∧
      (r.call c m).1 = .allocated (.ok (r.addressOf n)) ∧
      (r.call c m).2.Overlays ((ref.withMarks n r.geometry.baseLevel).enter n) := by
  rcases take_cases (r := r) hc with ⟨e, -, hcall⟩ | ⟨order, ho, hcall⟩
  · simp only [Region.call, Region.alone, hcall]
    exact .inl ⟨e, rfl, h, fun _ _ => id⟩
  · have hend := h.search href
      (hr.baseLevel_le_sub (Geometry.orderFor?_le hr.minSize_pos ho))
    simp only [Region.call, Region.alone, hcall]
    generalize BuddyTree.search (silent _) r.geometry.baseLevel order ⟨m, ()⟩ = result at hend ⊢
    obtain ⟨_ | n, w⟩ := result
    · exact .inl ⟨.outOfMemory c.wanted, rfl, hend⟩
    · exact .inr ⟨n, hend.1, rfl, hend.2.enter n⟩

/-- **Giving back a recorded block,** wherever something is announced. -/
theorem call_free (hr : r.Managed) (h : m.Overlays ref) (href : ref.AtRest r.geometry.baseLevel)
    (hn : ref.Records n) :
    r.call (.free (r.addressOf n)) m = (.freed (.ok ()), m.giveBack n r.geometry.baseLevel) := by
  refine free_recorded hr (h.records_iff.mpr hn) (href.level hn) ?_
  rw [h.tree.isFree]
  exact href.toSound.isFree_of_records hn

/-- **One call,** if each announcement stands beside its occupied flag: the reply is that at rest,
and so is all metadata but for announcements, which still stand beside their flags. -/
theorem call (hr : r.Managed) (h : m.Overlays ref) (href : ref.AtRest r.geometry.baseLevel)
    (hm : m.tree.Beside) (c : Call) :
    (r.call c m).1 = (r.call c ref).1 ∧ (r.call c m).2.Overlays (r.call c ref).2 ∧
      (r.call c m).2.tree.Beside := by
  rcases r.call_cases ref c with hc | ⟨n, hn, rfl⟩ | ⟨address, hnone, rfl⟩
  · rcases take_cases (r := r) hc with ⟨e, -, hcall⟩ | ⟨order, ho, hcall⟩
    · simp only [Region.call, Region.alone, hcall]
      exact ⟨trivial, h, hm⟩
    · have hle := hr.baseLevel_le_sub (Geometry.orderFor?_le hr.minSize_pos ho)
      obtain ⟨found, hfirst, hsearch⟩ := href.toSound.search href.coversNone hle
      have hvacant := hfirst.congr fun x hx hs => href.available_iff (n := x) (by
        rwa [Node.level, (NodeId.level_eq_iff x.pos).mpr ⟨hx, hs⟩])
      have hend := (scans href hle).search ⟨h, hm⟩
      simp only [Region.call, Region.alone, hcall, hsearch]
      generalize BuddyTree.search (silent _) r.geometry.baseLevel order ⟨m, ()⟩ = result at hend ⊢
      obtain ⟨_ | n, w⟩ := result
      · obtain rfl := hvacant.eq hend.2
        exact ⟨rfl, hend.1⟩
      · obtain rfl := hvacant.eq hend.2
        exact ⟨rfl, hend.1.1.enter n, hend.1.2⟩
  · rw [h.call_free hr href hn, (refl ref).call_free hr href hn]
    exact ⟨rfl, h.giveBack n _, h.beside_giveBack href hm hn⟩
  · obtain ⟨reply, -, hcall⟩ := free_cases r address
    rw [hcall m _ (h.listed href.toListed) fun n hn => hnone n (h.records_iff.mp hn),
      hcall ref _ href.toListed hnone]
    exact ⟨rfl, h, hm⟩

/-- **A history.** -/
theorem calls (hr : r.Managed) (h : m.Overlays ref) (href : ref.AtRest r.geometry.baseLevel)
    (hm : m.tree.Beside) (cs : List Call) :
    (r.calls cs m).1 = (r.calls cs ref).1 ∧ (r.calls cs m).2.Overlays (r.calls cs ref).2 ∧
      (r.calls cs m).2.tree.Beside := by
  induction cs generalizing m ref with
  | nil => exact ⟨rfl, h, hm⟩
  | cons c rest ih =>
    obtain ⟨hreply, hover, hbeside⟩ := h.call hr href hm c
    obtain ⟨hreplies, hend⟩ := ih hover (atRest_call hr c href) hbeside
    refine ⟨?_, hend⟩
    simp only [Region.calls, hreply, hreplies]

end Metadata.Overlays

end Calls
end BuddyTree
