/-
# Finding a free node

An allocation looks for a node on the level of its order.  A *pass* goes through that level from
the left.  It steps over nodes that are not free and claims the first one that is; if the claim is
refused, it goes on to the right of whatever refused it.

A pass that finds nothing proves nothing by itself, since a block behind it may have been released
meanwhile.  The release counter is read before each pass, and only if it has not moved is the
level taken to be exhausted; otherwise another pass begins.

The main facts: `firstFree?` finds the first free node, and none only if there is none
(`Tree.firstFree?_spec`, `Tree.firstFree?_eq_none_iff`); each step of a pass moves to the right
(`NodeId.lt_skipPast`), so a pass ends; and each further pass needs interference
(`Observer.Settles.pending_lt`), so the search ends.
-/
import BuddyTree.Claim

namespace BuddyTree

variable {d : Nat} {ε : Type}

/-! ## 1. Candidates -/

/-- The first free node from number `i` on, below `stop`. -/
def Tree.firstFree? (t : Tree d) (stop : Nat) (hstop : stop ≤ 2 ^ (d + 1)) (i : Nat)
    (hi : 0 < i) : Option (Node d) :=
  if h : i < stop then
    let n : Node d := ⟨i, hi, Nat.lt_of_lt_of_le h hstop⟩
    if (t.get n).isFree then some n
    else t.firstFree? stop hstop (i + 1) (Nat.succ_pos i)
  else none
termination_by stop - i

/-- **First.**  The node found is free, and no node from number `i` up to it is. -/
theorem Tree.firstFree?_spec {t : Tree d} {stop : Nat} {hstop : stop ≤ 2 ^ (d + 1)} {i : Nat}
    {hi : 0 < i} {n : Node d} (h : t.firstFree? stop hstop i hi = some n) :
    i ≤ n.id ∧ n.id < stop ∧ (t.get n).isFree = true ∧
      ∀ m : Node d, i ≤ m.id → m.id < n.id → (t.get m).isFree = false := by
  fun_induction Tree.firstFree? t stop hstop i hi with
  | case1 i hi hlt k hfree =>
    obtain rfl : k = n := Option.some.inj h
    exact ⟨Nat.le_refl _, hlt, hfree, fun m h1 h2 => absurd (Nat.lt_of_le_of_lt h1 h2)
      (Nat.lt_irrefl _)⟩
  | case2 i hi hlt k hfree ih =>
    obtain ⟨h1, h2, h3, h4⟩ := ih h
    refine ⟨by omega, h2, h3, fun m hm hn => ?_⟩
    rcases Nat.eq_or_lt_of_le hm with he | hl
    · obtain rfl : k = m := Node.ext he
      exact (Bool.not_eq_true _).mp hfree
    · exact h4 m hl hn
  | case3 i hi hlt => cases h

/-- **None.**  No node from number `i` on, below `stop`, is free. -/
theorem Tree.firstFree?_eq_none_iff {t : Tree d} {stop : Nat} {hstop : stop ≤ 2 ^ (d + 1)}
    {i : Nat} {hi : 0 < i} :
    t.firstFree? stop hstop i hi = none ↔
      ∀ m : Node d, i ≤ m.id → m.id < stop → (t.get m).isFree = false := by
  fun_induction Tree.firstFree? t stop hstop i hi with
  | case1 i hi hlt k hfree =>
    refine iff_of_false nofun (fun h => ?_)
    exact absurd hfree (by rw [h k (Nat.le_refl _) hlt]; decide)
  | case2 i hi hlt k hfree ih =>
    rw [ih]
    constructor
    · intro h m hm hs
      rcases Nat.eq_or_lt_of_le hm with he | hl
      · obtain rfl : k = m := Node.ext he
        exact (Bool.not_eq_true _).mp hfree
      · exact h m hl hs
    · exact fun h m hm hs => h m (by omega) hs
  | case3 i hi hlt =>
    exact iff_of_true rfl (fun m h1 h2 => absurd (Nat.lt_of_le_of_lt h1 h2) hlt)

/-! ## 2. One pass -/

/-- One pass from number `i` on, below `stop`, for blocks no higher than level `top`: the node
that was claimed, if any. -/
def pass (obs : Observer d ε) (top stop : Nat) (hstop : stop ≤ 2 ^ (d + 1)) (i : Nat)
    (hi : 0 < i) (w : World d ε) : Option (Node d) × World d ε :=
  match hn : w.store.tree.firstFree? stop hstop i hi with
  | none => (none, w)
  | some n =>
    match hc : claim obs n top w with
    | (none, w) => (some n, w)
    | (some f, w) =>
      let next := NodeId.skipPast n.id f.id
      have hnext : i < next := by
        obtain ⟨j, hj, hf⟩ := id_of_claim_eq_some (congrArg Prod.fst hc)
        have := NodeId.lt_skipPast n.pos hj
        have := (Tree.firstFree?_spec hn).1
        simp only [next, hf]
        omega
      pass obs top stop hstop next (Nat.lt_trans hi hnext)
        (obs.react (.conflict n.id f.id next) w)
termination_by stop - i
decreasing_by
  have := (Tree.firstFree?_spec hn).2.1
  have := (Tree.firstFree?_spec hn).1
  simp only [next] at hnext
  omega

theorem settles_pass (obs : Observer d ε) (top stop : Nat) (hstop : stop ≤ 2 ^ (d + 1)) (i : Nat)
    (hi : 0 < i) (w : World d ε) : obs.Settles w (pass obs top stop hstop i hi w).2 := by
  fun_induction pass obs top stop hstop i hi w with
  | case1 => exact .refl _
  | case2 i hi w n hn w' hc =>
    have := settles_claim obs n top w
    rwa [hc] at this
  | case3 i hi w n hn f w' hc next hnext ih =>
    have := settles_claim obs n top w
    rw [hc] at this
    exact this.trans ((Observer.settles_react _ _).trans ih)

/-! ## 3. The search -/

/-- One pass over a whole level. -/
def passLevel (obs : Observer d ε) (top level : Nat) (hlevel : level ≤ d) (w : World d ε) :
    Option (Node d) × World d ε :=
  pass obs top (NodeId.levelStart (level + 1))
    (by rw [NodeId.levelStart_eq]; exact Nat.pow_le_pow_right Nat.two_pos (by omega))
    (NodeId.levelStart level) (by rw [NodeId.levelStart_eq]; exact Nat.two_pow_pos _) w

theorem settles_passLevel (obs : Observer d ε) (top level : Nat) (hlevel : level ≤ d)
    (w : World d ε) : obs.Settles w (passLevel obs top level hlevel w).2 :=
  settles_pass obs _ _ _ _ _ w

/-- Look for a free node of this order until one is claimed or the level is exhausted; `before` is
the release counter as it was read before the pass that comes now. -/
def searchSince (obs : Observer d ε) (top order : Nat) (before : UInt64) (w : World d ε)
    (_hbefore : before = w.store.released) : Option (Node d) × World d ε :=
  match _hp : passLevel obs top (d - order) (Nat.sub_le _ _) w with
  | (some n, w') => (some n, w')
  | (none, w') =>
    if w'.store.released = before then (none, obs.react (.exhausted order) w')
    else
      let again := obs.react (.rescanning order) w'
      searchSince obs top order again.store.released again rfl
termination_by obs.pending w.env
decreasing_by
  next hne =>
    have h := settles_passLevel obs top (d - order) (Nat.sub_le _ _) w
    rw [_hp] at h
    exact Nat.lt_of_le_of_lt (Observer.settles_react _ _).pending_le
      (h.pending_lt (_hbefore ▸ hne))

/-- Look for a free node of this order until one is claimed or the level is exhausted. -/
def search (obs : Observer d ε) (top order : Nat) (w : World d ε) :
    Option (Node d) × World d ε :=
  searchSince obs top order w.store.released w rfl

/-- **What a search does.**  A pass that finds nothing decides only if no release was counted
meanwhile. -/
theorem search_eq (obs : Observer d ε) (top order : Nat) (w : World d ε) :
    search obs top order w =
      match passLevel obs top (d - order) (Nat.sub_le _ _) w with
      | (some n, w') => (some n, w')
      | (none, w') =>
        if w'.store.released = w.store.released then (none, obs.react (.exhausted order) w')
        else search obs top order (obs.react (.rescanning order) w') := by
  rw [search, searchSince]
  split <;> simp_all [search]

end BuddyTree
