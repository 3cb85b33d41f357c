/-
# Undoing a claim to the end

While a claim is being undone others may come in at each merge.  They keep its trail or withdraw
all of it, so the climb finds what it left or has nothing more to do; either way nothing is
announced in the end.

There is one exception: a call that gives back the block which has refused the claim *uncovers* it.
From then on nothing stops others at that block, but the undoing still ends below it.

The main facts: `undoing_claim` (another claim keeps what is left to undo), `undoing_or_uncovers`
(so does every call that does not uncover it), and `atRest_filmed` (an allocation goes from rest to
rest while others come in, if none of them uncovers a claim).
-/
import BuddyTree.Proofs.Answers
import BuddyTree.Proofs.Exclusion
import BuddyTree.Proofs.Trail

namespace BuddyTree

variable {d : Nat}

/-! ## 1. Calls in between -/

namespace Metadata

variable {m : Metadata d} {top : Nat} {o n x : Node d} {l : Nat}

/-- Block `o` has refused a claim of `n`, which is being undone and has a trail down to above level
`l`; or nothing is left to undo. -/
structure Undoing (m : Metadata d) (o n : Node d) (l : Nat) : Prop where
  owner : m.Records o
  trail : m.tree.Announces (Trail o n l) ∨ m.tree.Quiet

/-- A trail that has nothing on it is no announcement. -/
theorem quiet_iff_announces {t : Tree d} (h : l ≤ o.level + 1) :
    t.Quiet ↔ t.Announces (Trail o n l) := by
  have hnot := not_trail_of_level_le (n := n) h
  simp [Tree.Quiet, Tree.Announces, hnot]

/-- What is announced is a trail, perhaps the empty one. -/
theorem Undoing.exists_trail (h : m.Undoing o n l) : ∃ j, m.tree.Announces (Trail o n j) ∧
    ∀ t : Tree d, t.Announces (Trail o n j) → t.Announces (Trail o n l) ∨ t.Quiet := by
  rcases h.trail with hm | hq
  · exact ⟨l, hm, fun _ => .inl⟩
  · exact ⟨o.level + 1, (quiet_iff_announces (Nat.le_refl _)).mp hq,
      fun _ h => .inr ((quiet_iff_announces (Nat.le_refl _)).mpr h)⟩

/-- **Another claim** that succeeds lies elsewhere, -/
theorem Sound.claim_none_trail (h : m.Sound top) (ho : m.Records o) (hn : n.Within o)
    (hm : m.tree.Announces (Trail o n l)) (hx : top ≤ x.level) (hclear : m.tree.get x = .clear)
    (hnone : (Metadata.marked x top m.tree).1 = none) :
    (Metadata.marked x top m.tree).2.Announces (Trail o n l) := by
  have hheld := (h.marked hx hclear).1 hnone
  refine ((announces_marked hclear hx hm).1 hnone).congr fun a s => ?_
  refine and_iff_left_of_imp fun ht hin => ?_
  obtain ⟨c, hc⟩ := ht.exists_inHalf hn
  exact hheld.free o c ⟨hin.1.trans hc, h.level ho⟩ ho

/-- and one that is refused leaves the trail or nothing. -/
theorem Sound.claim_some_trail (h : m.Sound top) (ho : m.Records o) (hn : n.Within o)
    (hm : m.tree.Announces (Trail o n l)) (hx : top ≤ x.level) (hclear : m.tree.get x = .clear)
    {f : Node d} (hsome : (Metadata.marked x top m.tree).1 = some f) :
    let result := BuddyTree.release (silent d) x (f.level + 1) ⟨m.withMarks x top, ()⟩
    result.2.store.Sound top ∧ result.2.store.Undoing o n l := by
  intro result
  obtain ⟨hf, ⟨c, hxf⟩, hheld⟩ := (h.marked hx hclear).2 f hsome
  have hflags := (announces_marked hclear hx hm).2 f hsome
  have hsound := (steady_release (E := fun _ => True) (w := ⟨m.withMarks x top, ()⟩)
    (keeps_silent _) hheld trivial).2.1
  have hbooks := books_release letsPass_silent x (f.level + 1) ⟨m.withMarks x top, ()⟩
  refine ⟨hsound, by rw [hbooks.records]; exact ho, ?_⟩
  by_cases hxo : x.Within o
  · -- two recorded blocks above `x` are the same
    obtain rfl : f = o := by
      by_cases hl : f.level ≤ o.level
      · exact (h.within_eq hf ho (hxf.within.total hxo hl)).symm
      · exact h.within_eq ho hf (hxo.total hxf.within (by omega))
    exact hheld.release_trail ho hxo hflags
  · refine .inl (hheld.release_elsewhere hn hxo (hflags.congr fun a s => ?_))
    exact and_iff_left_of_imp fun ht hin => hxo (hin.1.within.trans (ht.within hn))

/-- **Another block that is given back** keeps what is left to undo. -/
theorem Undoing.release (hs : m.Sound top) (h : m.Undoing o n l) (hn : n.Within o)
    (hx : m.Records x) (hxo : x ≠ o) :
    ((BuddyTree.release (silent d) x top ⟨m.withdraw x.firstLeaf, ()⟩).2.store.discharge x).Undoing
      o n l := by
  have hheld := hs.withdraw hx
  have hbooks := books_release letsPass_silent x top ⟨m.withdraw x.firstLeaf, ()⟩
  have howner : (m.withdraw x.firstLeaf).Records o :=
    (records_withdraw_iff hx).mpr ⟨h.owner, hxo.symm⟩
  have hout : ¬ x.Within o := fun hin => hxo (hs.within_eq h.owner hx hin)
  obtain ⟨j, hm, hj⟩ := h.exists_trail
  refine ⟨?_, hj _ (hheld.release_elsewhere hn hout hm)⟩
  rw [← hbooks.records] at howner
  exact howner

end Metadata

/-- **Another claim** keeps what is left to undo. -/
theorem undoing_claim {top : Nat} {o n x : Node d} {l : Nat} (hn : n.Within o)
    (hx : top ≤ x.level) :
    Claims (silent d) top (fun w => w.store.Sound top ∧ w.store.Undoing o n l)
      (fun x w => w.store.Holding top x top ∧ w.store.Undoing o n l) x := by
  refine claim_rule (fun w h hclear hmarked => ?_) fun w f h hclear hmarked => ?_
  · obtain ⟨hs, hu⟩ := h
    obtain ⟨j, hm, hj⟩ := hu.exists_trail
    exact ⟨(hs.marked hx hclear).1 hmarked, hu.owner,
      hj _ (hs.claim_none_trail hu.owner hn hm hx hclear hmarked)⟩
  · obtain ⟨hs, hu⟩ := h
    obtain ⟨j, hm, hj⟩ := hu.exists_trail
    obtain ⟨hsound, howner, hrest⟩ := hs.claim_some_trail hu.owner hn hm hx hclear hmarked
    exact ⟨hsound, howner, hrest.elim (hj _) .inr⟩

section OneCall

variable {r : Region} {m : Metadata r.depth}

/-- A call that nothing interferes with keeps soundness. -/
theorem Metadata.Sound.call (hr : r.Managed) (h : m.Sound r.geometry.baseLevel) (c : Call) :
    (r.call c m).2.Sound r.geometry.baseLevel :=
  (steady_perform (E := fun _ => True) (w := ⟨m, ()⟩) hr (keeps_silent _) c ⟨h, trivial⟩).1

/-- **A call in between that takes a block** keeps what is left to undo. -/
theorem undoing_call (hr : r.Managed) {o n : Node r.depth} {l : Nat} (hn : n.Within o) {c : Call}
    (hc : c.Takes) (h : m.Sound r.geometry.baseLevel ∧ m.Undoing o n l) :
    (r.call c m).2.Sound r.geometry.baseLevel ∧ (r.call c m).2.Undoing o n l := by
  have hkeeps := keeps_silent fun w : World r.depth Unit =>
    w.store.Sound r.geometry.baseLevel ∧ w.store.Undoing o n l
  refine take_rule (w := ⟨m, ()⟩) hr hkeeps (fun _ => undoing_claim hn) ?_ hc h
  rintro x w ⟨hheld, howner, htrail⟩
  exact ⟨hheld.enter hr.depth_le, (Metadata.records_enter_iff hr.depth_le hheld).mpr (.inl howner),
    htrail⟩

/-- **A call in between that gives a block back** keeps what is left to undo, if it is not the block
that has refused the claim. -/
theorem undoing_free {o n : Node r.depth} {l : Nat} (hn : n.Within o) (address : Nat)
    (h : m.Sound r.geometry.baseLevel ∧ m.Undoing o n l) :
    (r.call (.free address) m).2.Sound r.geometry.baseLevel ∧
      ((r.call (.free address) m).2.Records o → (r.call (.free address) m).2.Undoing o n l) := by
  refine free_rule (w := ⟨m, ()⟩) (P := fun w => w.store.Sound r.geometry.baseLevel ∧
    (w.store.Records o → w.store.Undoing o n l)) (keeps_silent _) (fun leaf x w hw hx => ?_) address
    ⟨h.1, fun _ => h.2⟩
  obtain ⟨hs, hu⟩ := hw
  obtain ⟨htrue, hsteady⟩ := steady_leave (E := fun _ => True) (keeps_silent _) ⟨hs, trivial⟩ hx
  obtain ⟨hrec, rfl⟩ := hs.records_of_entry hx
  refine ⟨htrue, hsteady.1, fun ho => ?_⟩
  have hbooks := books_release letsPass_silent x r.geometry.baseLevel
    (w.mapStore (.withdraw x.firstLeaf))
  have ho' : (w.mapStore (.withdraw x.firstLeaf)).store.Records o := by
    rw [← hbooks.records]
    exact ho
  obtain ⟨howner, hne⟩ := (Metadata.records_withdraw_iff hrec).mp ho'
  exact (hu howner).release hs hn hrec hne.symm

end OneCall

/-! ## 2. Undoing it to the end -/

/-- The call comes in while a claim is being undone, and gives back a block of more than the order
that is claimed.  Only such a block can have refused the claim. -/
def Shot.Uncovers (hooks : List (Hook Call)) (order : Nat) (c : Call) (shot : Shot d) : Prop :=
  (∃ address, c = .free address) ∧ (∃ k ∈ hooks, k.event = .coalesced ∧ c ∈ k.actions) ∧
    ∃ n, shot.before.Records n ∧ ¬ shot.after.Records n ∧ order < n.order

/-- Those who give nothing back during a merge uncover nothing. -/
theorem Shot.not_uncovers {hooks : List (Hook Call)} {order : Nat} {c : Call} {shot : Shot d}
    (h : ∀ k ∈ hooks, k.event = .coalesced → ∀ address, .free address ∉ k.actions) :
    ¬ shot.Uncovers hooks order c := by
  rintro ⟨⟨address, rfl⟩, ⟨k, hk, hev, hc⟩, -⟩
  exact h k hk hev address hc

/-- Unless a claim has been uncovered, `S` holds.  Those who still wait are among those who waited
in the beginning. -/
structure Guarded (hooks : List (Hook Call)) (order : Nat) (S : Prop)
    (watch : Watch Call (Shot d)) : Prop where
  waiting : ∀ k ∈ watch.hooks, ∃ k' ∈ hooks, k.event = k'.event ∧ k.actions = k'.actions
  kept : S ∨ ∃ p ∈ watch.done, p.2.Uncovers hooks order p.1

theorem Guarded.imp {hooks : List (Hook Call)} {order : Nat} {S S' : Prop}
    {watch : Watch Call (Shot d)} (h : Guarded hooks order S watch) (hS : S → S') :
    Guarded hooks order S' watch :=
  ⟨h.waiting, h.kept.imp_left hS⟩

section Watching

variable {r : Region} {hooks : List (Hook Call)} {order : Nat}
  {w : World r.depth (Watch Call (Shot r.depth))}

/-- **A record** keeps what each call keeps that comes in at it. -/
theorem guarded_react (hr : r.Managed) {A : Call → Prop} {S : Metadata r.depth → Prop}
    {record : Record}
    (hS : ∀ c m, A c → m.Sound r.geometry.baseLevel → S m → S (r.call c m).2 ∨
      (⟨(r.call c m).1, m, (r.call c m).2⟩ : Shot r.depth).Uncovers hooks order c)
    (hA : ∀ k ∈ hooks, record.event? = some k.event → ∀ c ∈ k.actions, A c)
    (h : w.store.Sound r.geometry.baseLevel ∧ Guarded hooks order (S w.store) w.env) :
    let w' := (watching _ r.film).react record w
    w'.store.Sound r.geometry.baseLevel ∧ Guarded hooks order (S w'.store) w'.env := by
  have hstep : ∀ c w (done : Array (Call × Shot r.depth)), A c →
      w.store.Sound r.geometry.baseLevel ∧
        (S w.store ∨ ∃ p ∈ done, p.2.Uncovers hooks order p.1) →
      (r.film c w).2.store.Sound r.geometry.baseLevel ∧ (S (r.film c w).2.store ∨
        ∃ p ∈ done.push (c, (r.film c w).1), p.2.Uncovers hooks order p.1) := by
    rintro c w done hc ⟨hs, hor⟩
    have hcall := perform_recorder r c w
    have hsound := hs.call hr c
    rw [hcall] at hsound
    refine ⟨hsound, ?_⟩
    rcases hor with hw | ⟨p, hp, hbad⟩
    · have hkept := hS c w.store hc hs hw
      rw [hcall] at hkept
      exact hkept.imp_right fun hbad => ⟨_, Array.mem_push_self, hbad⟩
    · exact .inr ⟨p, Array.mem_push.mpr (.inl hp), hbad⟩
  obtain ⟨hs, hguard⟩ := h
  have hA' : ∀ k ∈ w.env.hooks, record.event? = some k.event → ∀ c ∈ k.actions, A c := by
    intro k hk hev c hc
    obtain ⟨k', hk', hevent, hactions⟩ := hguard.waiting k hk
    exact hA k' hk' (hevent ▸ hev) c (hactions ▸ hc)
  obtain ⟨hsound, hkept⟩ := react_rule hstep record hA' ⟨hs, hguard.kept⟩
  refine ⟨hsound, fun k hk => ?_, hkept⟩
  obtain ⟨k', hk', hevent, hactions⟩ := hooks_react record w k hk
  obtain ⟨k'', hk'', hevent', hactions'⟩ := hguard.waiting k' hk'
  exact ⟨k'', hk'', hevent.trans hevent', hactions.trans hactions'⟩

/-- A record keeps what any call keeps. -/
theorem keeps_guarded (hr : r.Managed) {S : Metadata r.depth → Prop}
    (hS : ∀ c m, m.Sound r.geometry.baseLevel → S m → S (r.call c m).2) :
    (watching _ r.film).Keeps fun w =>
      w.store.Sound r.geometry.baseLevel ∧ Guarded hooks order (S w.store) w.env :=
  fun _ _ _ h => guarded_react (A := fun _ => True) hr (fun c m _ hs hm => .inl (hS c m hs hm))
    (fun _ _ _ _ _ => trivial) h

/-- **A call in between** keeps what is left to undo, or gives back the block that has refused the
claim. -/
theorem undoing_or_uncovers (hr : r.Managed) {o n : Node r.depth} {l : Nat} (hn : n.Within o)
    (ho : order < o.order) {c : Call} (hc : ∃ k ∈ hooks, k.event = .coalesced ∧ c ∈ k.actions)
    {m : Metadata r.depth} (hs : m.Sound r.geometry.baseLevel) (h : m.Undoing o n l) :
    (r.call c m).2.Undoing o n l ∨
      (⟨(r.call c m).1, m, (r.call c m).2⟩ : Shot r.depth).Uncovers hooks order c := by
  by_cases htakes : c.Takes
  · exact .inl (undoing_call hr hn htakes ⟨hs, h⟩).2
  · cases c with
    | alloc _ | allocLayout _ => exact absurd trivial htakes
    | free address =>
      by_cases howner : (r.call (.free address) m).2.Records o
      · exact .inl ((undoing_free hn address ⟨hs, h⟩).2 howner)
      · exact .inr ⟨⟨address, rfl⟩, hc, o, h.owner, howner, ho⟩

variable {o n x y : Node r.depth} {k : Nat}

/-- Once a claim is uncovered nothing more is promised about it. -/
theorem keeps_uncovered (hr : r.Managed) :
    (watching _ r.film).Keeps (Steady r.geometry.baseLevel (Guarded hooks order False)) :=
  keeps_guarded (S := fun _ => False) hr fun _ _ _ h => h

/-- **The climb goes on** from `y` and finds the rest of its trail, or nothing; either way nothing
is left in the end. -/
theorem quiet_merge_watched (hr : r.Managed) (hn : n.Within y) (hy : y.Within o)
    (ho : order < o.order) (hk : y.level = o.level + 1 + k)
    (h : w.store.Sound r.geometry.baseLevel ∧
      Guarded hooks order (w.store.Undoing o n y.level) w.env) :
    let w' := merge (watching _ r.film) (y.climb k) w
    w'.store.Sound r.geometry.baseLevel ∧ Guarded hooks order w'.store.tree.Quiet w'.env := by
  induction k generalizing y w with
  | zero =>
    exact ⟨h.1, h.2.imp fun hu => hu.trail.elim (Metadata.quiet_iff_announces (by omega)).mpr id⟩
  | succ k ih =>
    obtain ⟨hs, hwaiting, hu | hbad⟩ := h
    case inr =>
      have hend := steady_merge (keeps_uncovered hr) (y.climb (k + 1)) ⟨hs, hwaiting, .inr hbad⟩
      exact ⟨hend.1, hend.2.imp False.elim⟩
    cases hp : y.parent? with
    | none =>
      have := Node.parent?_eq_none hp
      omega
    | some p =>
      have hlev := Node.level_parent? hp
      have hyp := Node.inHalf_parent? hp
      have hpo : p.Within o := hy.total hyp.within (by omega)
      obtain ⟨e, hpe⟩ := hpo.exists_inHalf (by omega)
      have hnp : n.InHalf p y.side := hn.inHalf hyp
      obtain ⟨howner, htrail⟩ := hu
      rw [Node.climb_succ hp]
      rw [merge_cons]
      split
      · next hc =>
        have hm : w.store.tree.Announces (Trail o n y.level) := by
          rcases htrail with hm | hq
          · exact hm
          · simp [hq p] at hc
        have hm' := hm.merged hnp hlev.symm
        have hocc := hs.not_isOccupied_other howner hm hpe hnp
        have hleft : (w.merged ⟨p, y.side⟩).store.Sound r.geometry.baseLevel ∧
            Guarded hooks order ((w.merged ⟨p, y.side⟩).store.Undoing o n p.level)
              (w.merged ⟨p, y.side⟩).env :=
          ⟨hs.merged hc, hwaiting, .inl ⟨howner, .inl hm'⟩⟩
        have hnext := ih hnp.within hpo (by omega) hleft
        split
        · next hend =>
          have hempty : p.climb k = [] := by simpa [hocc] using hend
          rwa [hempty] at hnext
        · refine ih hnp.within hpo (by omega) (guarded_react hr
            (S := fun m => m.Undoing o n p.level)
            (A := fun c => ∃ k ∈ hooks, k.event = .coalesced ∧ c ∈ k.actions)
            (fun c m hc hs hu => undoing_or_uncovers hr (hnp.within.trans hpo) ho hc hs hu)
            (fun k hk hev c hc => ⟨k, hk, (Option.some.inj hev).symm, hc⟩) hleft)
      · next hnot =>
        refine ⟨hs, hwaiting, .inl ?_⟩
        rcases htrail with hm | hq
        · exact absurd ((hm p y.side).mpr ⟨hnp, by omega, by omega⟩) hnot
        · exact hq

/-- **A refused claim is undone completely,** or uncovered. -/
theorem quiet_claim_watched (hr : r.Managed) (hx : r.geometry.baseLevel ≤ x.level)
    (ho : x.order = order) :
    Claims (watching _ r.film) r.geometry.baseLevel
      (fun w => w.store.Sound r.geometry.baseLevel ∧
        Guarded hooks order w.store.tree.Quiet w.env)
      (fun x w => w.store.Holding r.geometry.baseLevel x r.geometry.baseLevel ∧
        Guarded hooks order w.store.tree.Quiet w.env) x := by
  refine claim_rule (fun w h hclear hmarked => ?_) fun w o h hclear hmarked => ?_
  · exact ⟨(h.1.marked hx hclear).1 hmarked, h.2.imp Metadata.quiet_marked⟩
  · obtain ⟨howner, ⟨c, hin⟩, hheld⟩ := (h.1.marked hx hclear).2 o hmarked
    have hle := hheld.bound_le
    have horder : order < o.order := by
      have := x.level_le
      unfold Node.order at ho ⊢
      omega
    rw [Metadata.Holding.release_eq _ (w := w.mapStore (.withMarks x r.geometry.baseLevel)) hheld]
    refine quiet_merge_watched hr (Node.within_self x) hin.within horder (by omega)
      ⟨hheld.giveUp, h.2.imp fun hq => ⟨howner, .inl ?_⟩⟩
    have hflags := hheld.announces_giveUp howner hin.within
      (Tree.quiet_iff.mp (Metadata.quiet_marked hq))
    refine hflags.congr fun a s => ?_
    rw [false_or]
    exact and_congr_right fun ha => ⟨fun hl => ⟨hl, ha.level_lt⟩, fun hl => hl.1⟩

/-- **An allocation goes from rest to rest,** also while others come in, if none of them uncovers a
claim. -/
theorem atRest_filmed (hr : r.Managed) {m : Metadata r.depth} (h : m.AtRest r.geometry.baseLevel)
    {bytes : Nat} (hooks : List (Hook Call))
    (hsafe : ∀ order, r.geometry.orderFor? bytes = some order →
      ∀ p ∈ (r.filmed (.alloc bytes) hooks m).2.1.done, ¬ p.2.Uncovers hooks order p.1) :
    (r.filmed (.alloc bytes) hooks m).2.2.AtRest r.geometry.baseLevel := by
  cases hord : r.geometry.orderFor? bytes with
  | none =>
    have hsame : (r.filmed (.alloc bytes) hooks m).2.2 = m := by
      simp [Region.filmed, Region.watched, Call.perform, Region.alloc, hord]
    rwa [hsame]
  | some order =>
    have hkeeps : (watching _ r.film).Keeps fun w => w.store.Sound r.geometry.baseLevel ∧
        Guarded hooks order w.store.tree.Quiet w.env :=
      keeps_guarded (S := fun m => m.tree.Quiet) hr
        fun c m hs hq => (atRest_call hr c ⟨hs, hq⟩).quiet
    have hle := Geometry.orderFor?_le hr.minSize_pos hord
    have hlevel := hr.baseLevel_le_sub hle
    have hdepth : order ≤ r.depth := Nat.le_trans hle (Nat.sub_le _ _)
    have hend := alloc_rule (w := ⟨m, .start hooks⟩)
      (Q := fun n w => w.store.Holding r.geometry.baseLevel n r.geometry.baseLevel ∧
        Guarded hooks order w.store.tree.Quiet w.env)
      hkeeps bytes (fun o ho w hw => ?_) (fun n w hw => ⟨hw.1.enter hr.depth_le, hw.2⟩)
      ⟨h.toSound, fun k hk => ⟨k, hk, rfl, rfl⟩, .inl h.quiet⟩
    · refine ⟨hend.1, hend.2.kept.resolve_right ?_⟩
      rintro ⟨p, hp, hbad⟩
      exact hsafe order hord p hp hbad
    · obtain rfl : order = o := Option.some.inj (hord.symm.trans ho)
      refine search_rule hkeeps (fun n hn => quiet_claim_watched hr (by omega) ?_) hw
      rw [Node.order, hn, Nat.sub_sub_self hdepth]

end Watching
end BuddyTree
