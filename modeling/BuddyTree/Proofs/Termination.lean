/-
# Passes end

Whatever the bytes of the tree are, a pass ends, and it stays where it belongs: between the base
level and the level it searches.  This is shown access by access (`Point`).  What a point may be
is an invariant (`OnCourse`), and what is left to do a number (`effort`); one access keeps the
first and lowers the second, whatever byte is read.  So neither depends on who writes to the tree
in between.

The main facts: `OnCourse.ends` (from any point on, a pass comes to an end) and `Leads.bounded`
(where its accesses are, and how many).
-/
import BuddyTree.Access

namespace BuddyTree

namespace NodeId

/-! ## 1. Upwards by number -/

/-- The number is `n` or that of an ancestor. -/
def Above (n c : Nat) : Prop := ∃ k ≤ level n, up n k = c

variable {n c : Nat}

theorem above_self (n : Nat) : Above n n :=
  ⟨0, Nat.zero_le _, up_zero n⟩

theorem Above.pos (h : Above n c) (hn : 0 < n) : 0 < c := by
  obtain ⟨k, hk, rfl⟩ := h
  exact up_pos hn hk

theorem Above.level_le (h : Above n c) (hn : 0 < n) : level c ≤ level n := by
  obtain ⟨k, hk, rfl⟩ := h
  rw [level_up hn hk]
  exact Nat.sub_le _ _

/-- One level further up is the parent. -/
theorem Above.parent (h : Above n c) (hn : 0 < n) (hc : 0 < level c) :
    Above n (parent c) ∧ level (parent c) + 1 = level c := by
  obtain ⟨k, hk, rfl⟩ := h
  rw [level_up hn hk] at hc ⊢
  rw [NodeId.parent, up_up]
  refine ⟨⟨k + 1, by omega, rfl⟩, ?_⟩
  rw [level_up hn (by omega)]
  omega

theorem Above.lt_skipPast (h : Above n c) (hn : 0 < n) : n < skipPast n c := by
  obtain ⟨k, hk, rfl⟩ := h
  exact NodeId.lt_skipPast hn hk

theorem Above.skipPast_le (h : Above n c) (hn : 0 < n) : skipPast n c ≤ 2 ^ (level n + 1) := by
  obtain ⟨k, hk, rfl⟩ := h
  exact NodeId.skipPast_le hn hk

end NodeId

namespace Point

open NodeId

variable {d top l : Nat}

/-! ## 2. Where a pass can be -/

/-- Node `n` of level `l` can be refused by `owner`. -/
structure Refuses (top l n owner : Nat) : Prop where
  pos : 0 < n
  level_eq : level n = l
  above : Above n owner
  top_le : top ≤ level owner
  lt : level owner < l

/-- The point belongs to a pass over level `l` that marks up to level `top`. -/
def OnCourse (top l : Nat) : Point → Prop
  | visit i => 0 < i ∧ level i = l
  | mark n reached => 0 < n ∧ level n = l ∧ Above n reached ∧ top < level reached
  | giveUp n owner => Refuses top l n owner
  | announce n owner reached =>
    Refuses top l n owner ∧ Above n reached ∧ level owner + 1 < level reached
  | clear n owner => Refuses top l n owner
  | merge n owner reached =>
    Refuses top l n owner ∧ Above n reached ∧ level owner + 1 < level reached
  | found n => 0 < n ∧ level n = l
  | nothing => True

theorem onCourse_visitFrom {i : Nat} (h : 2 ^ l ≤ i) :
    (visitFrom (2 ^ (l + 1)) i).OnCourse top l := by
  have hpos := Nat.two_pow_pos l
  unfold visitFrom
  split
  · next hlt => exact ⟨by omega, (level_eq_iff (by omega)).mpr ⟨h, hlt⟩⟩
  · trivial

theorem onCourse_markFrom {n reached : Nat} (hn : 0 < n) (hl : level n = l)
    (h : Above n reached) : (markFrom top n reached).OnCourse top l := by
  unfold markFrom
  split
  · next hlt => exact ⟨hn, hl, h, hlt⟩
  · exact ⟨hn, hl⟩

theorem onCourse_announceFrom {n owner reached : Nat} (h : Refuses top l n owner)
    (hr : Above n reached) : (announceFrom n owner reached).OnCourse top l := by
  unfold announceFrom
  split
  · next hlt => exact ⟨h, hr, hlt⟩
  · exact h

/-- A refusal lets the visits go on at or behind the next number of the level. -/
theorem Refuses.skipPast {n owner : Nat} (h : Refuses top l n owner) :
    n < skipPast n owner ∧ NodeId.skipPast n owner ≤ 2 ^ (l + 1) ∧ 2 ^ l ≤ n := by
  refine ⟨h.above.lt_skipPast h.pos, ?_, ?_⟩
  · rw [← h.level_eq]
    exact h.above.skipPast_le h.pos
  · rw [← h.level_eq]
    exact (level_bounds h.pos).1

theorem Refuses.onCourse {n owner : Nat} (h : Refuses top l n owner) :
    (visitFrom (2 ^ (l + 1)) (NodeId.skipPast n owner)).OnCourse top l := by
  obtain ⟨hlt, -, hle⟩ := h.skipPast
  exact onCourse_visitFrom (by omega)

/-- **One access** keeps the course, whatever byte is read. -/
theorem onCourse_next (p : Point) (s : Status) (h : p.OnCourse top l) :
    (p.next top (2 ^ (l + 1)) s).OnCourse top l := by
  cases p with
  | visit i =>
    obtain ⟨hi, hl⟩ := h
    have hstart : 2 ^ l ≤ i := hl ▸ (level_bounds hi).1
    have hskip := (above_self i).lt_skipPast hi
    simp only [next]
    split
    · exact onCourse_visitFrom (by omega)
    · split
      · exact onCourse_markFrom hi hl (above_self i)
      · exact onCourse_visitFrom (by omega)
  | mark n reached =>
    obtain ⟨hn, hl, hr, htop⟩ := h
    obtain ⟨hup, hlevel⟩ := hr.parent hn (by omega)
    have hle := hr.level_le hn
    simp only [next]
    split
    · exact ⟨hn, hl, hup, by omega, by omega⟩
    · exact onCourse_markFrom hn hl hup
  | giveUp n owner =>
    have h : Refuses top l n owner := h
    simp only [next]
    split
    · exact h.onCourse
    · exact onCourse_announceFrom h (above_self n)
  | announce n owner reached =>
    obtain ⟨h, hr, hlt⟩ := h
    obtain ⟨hup, hlevel⟩ := hr.parent h.pos (by omega)
    simp only [next]
    split
    · exact h
    · exact onCourse_announceFrom h hup
  | clear n owner =>
    have h : Refuses top l n owner := h
    simp only [next]
    split
    · exact h.onCourse
    · next hne =>
      have hl := h.level_eq
      have hlt := h.lt
      exact ⟨h, above_self n, by omega⟩
  | merge n owner reached =>
    obtain ⟨h, hr, hlt⟩ := h
    obtain ⟨hup, hlevel⟩ := hr.parent h.pos (by omega)
    simp only [next]
    split
    · exact h.onCourse
    · next hgo =>
      simp only [Bool.or_eq_true, decide_eq_true_eq, not_or] at hgo
      exact ⟨h, hup, by omega⟩
  | found n => exact h
  | nothing => trivial

/-- On its course a pass touches only nodes from level `top` down to level `l`. -/
theorem OnCourse.node {p : Point} (h : p.OnCourse top l) (htop : top ≤ l) {id : Nat}
    (hid : p.node? = some id) : 0 < id ∧ top ≤ level id ∧ level id ≤ l := by
  have hparent : ∀ {n reached : Nat}, 0 < n → level n = l → Above n reached →
      top < level reached → 0 < parent reached ∧ top ≤ level (parent reached) ∧
        level (parent reached) ≤ l := by
    intro n reached hn hl hr hlt
    obtain ⟨hup, hlevel⟩ := hr.parent hn (by omega)
    have := hr.level_le hn
    exact ⟨hup.pos hn, by omega, by omega⟩
  cases p with
  | visit i =>
    cases hid
    exact ⟨h.1, by rw [h.2]; exact htop, Nat.le_of_eq h.2⟩
  | mark n reached =>
    cases hid
    obtain ⟨hn, hl, hr, hlt⟩ := h
    exact hparent hn hl hr hlt
  | giveUp n owner | clear n owner =>
    cases hid
    have h : Refuses top l id owner := h
    exact ⟨h.pos, by rw [h.level_eq]; exact htop, Nat.le_of_eq h.level_eq⟩
  | announce n owner reached | merge n owner reached =>
    cases hid
    obtain ⟨h, hr, hlt⟩ := h
    have := h.top_le
    exact hparent h.pos h.level_eq hr (by omega)
  | found n | nothing => cases hid

/-! ## 3. What is left to do -/

/-- The accesses that the numbers to the right of `n` can take on level `l`. -/
def effortBehind (l n : Nat) : Nat := (2 ^ (l + 1) - (n + 1)) * (3 * l + 6)

/-- A bound on the accesses that are left. -/
def effort (l : Nat) : Point → Nat
  | visit i => effortBehind l i + (3 * l + 6)
  | mark n reached => effortBehind l n + (2 * l + 5 + level reached)
  | giveUp n _ => effortBehind l n + (2 * l + 4)
  | announce n _ reached => effortBehind l n + (l + 3 + level reached)
  | clear n _ => effortBehind l n + (l + 2)
  | merge n _ reached => effortBehind l n + (level reached + 1)
  | found _ => 0
  | nothing => 0

theorem effort_visitFrom_le {n i : Nat} (h : n < i) :
    effort l (visitFrom (2 ^ (l + 1)) i) ≤ effortBehind l n := by
  unfold visitFrom
  split
  · next hlt =>
    simp only [effort, effortBehind]
    rw [← Nat.succ_mul]
    exact Nat.mul_le_mul_right _ (by omega)
  · exact Nat.zero_le _

theorem effort_markFrom_le (top l n reached : Nat) :
    effort l (markFrom top n reached) ≤ effortBehind l n + (2 * l + 5 + level reached) := by
  unfold markFrom
  split
  · exact Nat.le_refl _
  · exact Nat.zero_le _

theorem effort_announceFrom_le (l n owner reached : Nat) :
    effort l (announceFrom n owner reached) ≤ effortBehind l n + (l + 3 + level reached) := by
  unfold announceFrom
  split <;> simp only [effort] <;> omega

theorem Refuses.effort_le {n owner : Nat} (h : Refuses top l n owner) :
    effort l (visitFrom (2 ^ (l + 1)) (NodeId.skipPast n owner)) ≤ effortBehind l n :=
  effort_visitFrom_le h.skipPast.1

/-- **One access** leaves less to do, whatever byte is read. -/
theorem effort_next (p : Point) (s : Status) (h : p.OnCourse top l) (hp : p.node? ≠ none) :
    effort l (p.next top (2 ^ (l + 1)) s) < effort l p := by
  cases p with
  | visit i =>
    obtain ⟨hi, hl⟩ := h
    have hnext := effort_visitFrom_le (l := l) (show i < i + 1 by omega)
    have hskip := effort_visitFrom_le (l := l) ((above_self i).lt_skipPast hi)
    have hmark := effort_markFrom_le top l i i
    show effort l _ < effortBehind l i + (3 * l + 6)
    simp only [next]
    split
    · omega
    · split <;> omega
  | mark n reached =>
    obtain ⟨hn, hl, hr, htop⟩ := h
    obtain ⟨-, hlevel⟩ := hr.parent hn (by omega)
    have hmark := effort_markFrom_le top l n (parent reached)
    show effort l _ < effortBehind l n + (2 * l + 5 + level reached)
    simp only [next]
    split
    · show effortBehind l n + (2 * l + 4) < _
      omega
    · omega
  | giveUp n owner =>
    have h : Refuses top l n owner := h
    have hl := h.level_eq
    have hskip := h.effort_le
    have hannounce := effort_announceFrom_le l n owner n
    show effort l _ < effortBehind l n + (2 * l + 4)
    simp only [next]
    split <;> omega
  | announce n owner reached =>
    obtain ⟨h, hr, hlt⟩ := h
    obtain ⟨-, hlevel⟩ := hr.parent h.pos (by omega)
    have hannounce := effort_announceFrom_le l n owner (parent reached)
    show effort l _ < effortBehind l n + (l + 3 + level reached)
    simp only [next]
    split
    · show effortBehind l n + (l + 2) < _
      omega
    · omega
  | clear n owner =>
    have h : Refuses top l n owner := h
    have hl := h.level_eq
    have hskip := h.effort_le
    show effort l _ < effortBehind l n + (l + 2)
    simp only [next]
    split
    · omega
    · show effortBehind l n + (level n + 1) < _
      omega
  | merge n owner reached =>
    obtain ⟨h, hr, hlt⟩ := h
    obtain ⟨-, hlevel⟩ := hr.parent h.pos (by omega)
    have hskip := h.effort_le
    show effort l _ < effortBehind l n + (level reached + 1)
    simp only [next]
    split
    · omega
    · show effortBehind l n + (level (parent reached) + 1) < _
      omega
  | found n | nothing => exact absurd rfl hp

/-- The least number that may still be visited. -/
def ahead (l : Nat) : Point → Nat
  | visit i => i
  | mark n _ => n + 1
  | giveUp n _ => n + 1
  | announce n _ _ => n + 1
  | clear n _ => n + 1
  | merge n _ _ => n + 1
  | found n => n + 1
  | nothing => 2 ^ (l + 1)

theorem le_ahead_visitFrom {n i : Nat} (h : n ≤ i) (hn : n ≤ 2 ^ (l + 1)) :
    n ≤ ahead l (visitFrom (2 ^ (l + 1)) i) := by
  unfold visitFrom
  split
  · exact h
  · exact hn

theorem ahead_markFrom (n reached : Nat) : ahead l (markFrom top n reached) = n + 1 := by
  unfold markFrom
  split <;> rfl

theorem ahead_announceFrom (n owner reached : Nat) :
    ahead l (announceFrom n owner reached) = n + 1 := by
  unfold announceFrom
  split <;> rfl

theorem Refuses.le_ahead {n owner : Nat} (h : Refuses top l n owner) :
    n + 1 ≤ ahead l (visitFrom (2 ^ (l + 1)) (NodeId.skipPast n owner)) := by
  obtain ⟨hlt, hle, -⟩ := h.skipPast
  exact le_ahead_visitFrom hlt (by omega)

/-- **One access** does not go back, and leaves behind the number that it visited. -/
theorem ahead_next (p : Point) (s : Status) (h : p.OnCourse top l) :
    ahead l p ≤ ahead l (p.next top (2 ^ (l + 1)) s) ∧
      ∀ i ∈ p.candidate?, i < ahead l (p.next top (2 ^ (l + 1)) s) := by
  cases p with
  | visit i =>
    obtain ⟨hi, hl⟩ := h
    have hend : i + 1 ≤ 2 ^ (l + 1) := hl ▸ (level_bounds hi).2
    have hnext := le_ahead_visitFrom (Nat.le_refl (i + 1)) hend
    have hskip := le_ahead_visitFrom ((above_self i).lt_skipPast hi) hend
    suffices hlt : i < ahead l ((visit i).next top (2 ^ (l + 1)) s) from
      ⟨Nat.le_of_lt hlt, fun j hj => by cases hj; exact hlt⟩
    simp only [next]
    split
    · exact hnext
    · split
      · exact Nat.le_of_eq (ahead_markFrom i i).symm
      · exact hskip
  | mark n reached =>
    refine ⟨?_, nofun⟩
    simp only [next]
    split
    · exact Nat.le_refl _
    · exact Nat.le_of_eq (ahead_markFrom n _).symm
  | giveUp n owner =>
    refine ⟨?_, nofun⟩
    simp only [next]
    split
    · exact Refuses.le_ahead h
    · exact Nat.le_of_eq (ahead_announceFrom n owner n).symm
  | announce n owner reached =>
    refine ⟨?_, nofun⟩
    simp only [next]
    split
    · exact Nat.le_refl _
    · exact Nat.le_of_eq (ahead_announceFrom n owner _).symm
  | clear n owner =>
    refine ⟨?_, nofun⟩
    simp only [next]
    split
    · exact Refuses.le_ahead h
    · exact Nat.le_refl _
  | merge n owner reached =>
    refine ⟨?_, nofun⟩
    simp only [next]
    split
    · exact h.1.le_ahead
    · exact Nat.le_refl _
  | found n | nothing => exact ⟨Nat.le_refl _, nofun⟩

/-! ## 4. Along a pass -/

section Along

variable {stop : Nat} {p q : Point} {t u : Tree d} {points : List Point}

/-- What a step does is decided by the byte that it reads. -/
theorem step_eq_some_iff : p.step top stop t = some (q, u) ↔
    ∃ id x, p.node? = some id ∧ Node.ofId? d id = some x ∧ q = p.next top stop (t.get x) ∧
      u = t.set x (p.write (t.get x)) := by
  simp only [step, Option.map_eq_some_iff, Option.bind_eq_some_iff, Prod.mk.injEq]
  constructor
  · rintro ⟨x, ⟨id, hid, hx⟩, rfl, rfl⟩
    exact ⟨id, x, hid, hx, rfl, rfl⟩
  · rintro ⟨id, x, hid, hx, rfl, rfl⟩
    exact ⟨x, ⟨id, hid, hx⟩, rfl, rfl⟩

theorem Leads.append {r : Point} {v : Tree d} {points' : List Point}
    (h : Leads top stop p t points q u) (h' : Leads top stop q u points' r v) :
    Leads top stop p t (points ++ points') r v := by
  induction h with
  | refl _ _ => exact h'
  | step hs _ ih => exact .step hs (ih h')

theorem Leads.single (h : p.step top stop t = some (q, u)) : Leads top stop p t [p] q u :=
  .step h (.refl q u)

/-- A pass stays on its course, -/
theorem Leads.onCourse (h : Leads top (2 ^ (l + 1)) p t points q u) (hp : p.OnCourse top l) :
    (∀ x ∈ points, x.OnCourse top l) ∧ q.OnCourse top l := by
  induction h with
  | refl _ _ => exact ⟨nofun, hp⟩
  | step hs _ ih =>
    obtain ⟨id, x, -, -, rfl, -⟩ := step_eq_some_iff.mp hs
    obtain ⟨hpoints, hend⟩ := ih (onCourse_next _ _ hp)
    exact ⟨List.forall_mem_cons.mpr ⟨hp, hpoints⟩, hend⟩

/-- it makes no more accesses than it can, -/
theorem Leads.length_le (h : Leads top (2 ^ (l + 1)) p t points q u) (hp : p.OnCourse top l) :
    points.length + effort l q ≤ effort l p := by
  induction h with
  | refl _ _ => simp
  | @step p _ _ t _ _ points hs _ ih =>
    obtain ⟨id, x, hid, -, rfl, -⟩ := step_eq_some_iff.mp hs
    have hrest := ih (onCourse_next _ _ hp)
    have hless := effort_next p (t.get x) hp (by rw [hid]; nofun)
    rw [List.length_cons]
    omega

/-- and it visits its candidates from the left to the right. -/
theorem Leads.ascending (h : Leads top (2 ^ (l + 1)) p t points q u) (hp : p.OnCourse top l) :
    (∀ i ∈ points.filterMap candidate?, ahead l p ≤ i) ∧
      (points.filterMap candidate?).Pairwise (· < ·) := by
  induction h with
  | refl _ _ => exact ⟨by simp, List.Pairwise.nil⟩
  | @step p _ _ _ _ _ points hs _ ih =>
    obtain ⟨id, x, -, -, rfl, -⟩ := step_eq_some_iff.mp hs
    obtain ⟨hleast, hascending⟩ := ih (onCourse_next _ _ hp)
    obtain ⟨hle, hlt⟩ := ahead_next _ _ hp
    cases hc : p.candidate? with
    | none =>
      rw [List.filterMap_cons_none hc]
      exact ⟨fun i hi => Nat.le_trans hle (hleast i hi), hascending⟩
    | some i =>
      have hi : ahead l p = i := by
        cases p <;> cases hc
        rfl
      have hbehind : ∀ j ∈ points.filterMap candidate?, i < j :=
        fun j hj => Nat.lt_of_lt_of_le (hlt i hc) (hleast j hj)
      rw [List.filterMap_cons_some hc]
      refine ⟨List.forall_mem_cons.mpr ⟨Nat.le_of_eq hi, fun j hj => ?_⟩,
        List.pairwise_cons.mpr ⟨hbehind, hascending⟩⟩
      have := hbehind j hj
      omega

/-- **Nothing stops a pass before its end.**  On its course, the next access is to a node of the
tree. -/
theorem OnCourse.exists_step (h : p.OnCourse top l) (htop : top ≤ l) (hl : l ≤ d)
    (hp : p.node? ≠ none) (t : Tree d) : ∃ q u, p.step top stop t = some (q, u) := by
  obtain ⟨id, hid⟩ := Option.ne_none_iff_exists'.mp hp
  obtain ⟨hpos, -, hle⟩ := h.node htop hid
  have hlt : id < 2 ^ (d + 1) := Nat.lt_of_lt_of_le (level_bounds hpos).2
    (Nat.pow_le_pow_right Nat.two_pos (by omega))
  exact ⟨_, _, step_eq_some_iff.mpr ⟨id, ⟨id, hpos, hlt⟩, hid, dif_pos ⟨hpos, hlt⟩, rfl, rfl⟩⟩

/-- **A pass ends,** wherever it stands, and whatever the tree has become until then. -/
theorem OnCourse.ends (h : p.OnCourse top l) (htop : top ≤ l) (hl : l ≤ d) (t : Tree d) :
    ∃ points q u, Leads top (2 ^ (l + 1)) p t points q u ∧ q.node? = none := by
  induction he : effort l p using Nat.strongRecOn generalizing p t with
  | ind e ih =>
    by_cases hp : p.node? = none
    · exact ⟨[], p, t, .refl p t, hp⟩
    · obtain ⟨q, u, hs⟩ := h.exists_step htop hl hp t
      obtain ⟨id, x, -, -, rfl, -⟩ := step_eq_some_iff.mp hs
      obtain ⟨points, q, v, hrest, hend⟩ :=
        ih _ (he ▸ effort_next p (t.get x) h hp) (onCourse_next p (t.get x) h) u rfl
      exact ⟨p :: points, q, v, .step hs hrest, hend⟩

end Along

/-! ## 5. Where the accesses are -/

/-- On its course a pass goes on to the right of what refuses a claim, and no further than to the
end of its level. -/
theorem OnCourse.refusal {p : Point} (h : p.OnCourse top l) {n owner : Nat}
    (hp : p.refusal? = some (n, owner)) :
    n < skipPast n owner ∧ skipPast n owner ≤ 2 ^ (l + 1) := by
  cases p with
  | visit i =>
    cases hp
    obtain ⟨hi, rfl⟩ := h
    exact ⟨(above_self n).lt_skipPast hi, (above_self n).skipPast_le hi⟩
  | giveUp n owner | clear n owner =>
    cases hp
    obtain ⟨hlt, hle, -⟩ := Refuses.skipPast h
    exact ⟨hlt, hle⟩
  | announce n owner reached | merge n owner reached =>
    cases hp
    obtain ⟨hlt, hle, -⟩ := h.1.skipPast
    exact ⟨hlt, hle⟩
  | mark n reached | found n | nothing => cases hp

/-- The accesses of a pass over level `l` of a tree of depth `d`, for blocks no higher than level
`top`: where they are, and how many. -/
structure Bounded (d top l : Nat) (points : List Point) : Prop where
  /-- The candidates are numbers of the level, -/
  candidates : ∀ i ∈ points.filterMap candidate?, 2 ^ l ≤ i ∧ i < 2 ^ (l + 1)
  /-- each to the right of the one before. -/
  ascending : (points.filterMap candidate?).Pairwise (· < ·)
  /-- What refuses a claim sends the visits to the right, to the end of the level at most. -/
  skips : ∀ p ∈ points, ∀ n owner, p.refusal? = some (n, owner) →
    n < skipPast n owner ∧ skipPast n owner ≤ 2 ^ (l + 1)
  /-- Only nodes of the tree are accessed, from level `top` down to level `l`. -/
  nodes : ∀ p ∈ points, ∀ id, p.node? = some id →
    0 < id ∧ id < 2 ^ (d + 1) ∧ top ≤ level id ∧ level id ≤ l
  /-- There is an end to it. -/
  length_le : points.length ≤ 2 ^ l * (3 * l + 6)

/-- **The accesses of a pass.** -/
theorem Leads.bounded {q : Point} {t u : Tree d} {points : List Point}
    (h : Leads top (2 ^ (l + 1)) (visit (2 ^ l)) t points q u) (htop : top ≤ l) (hl : l ≤ d) :
    Bounded d top l points := by
  have hstart : (visit (2 ^ l)).OnCourse top l :=
    ⟨Nat.two_pow_pos l, Nat.log2_two_pow⟩
  obtain ⟨hpoints, -⟩ := h.onCourse hstart
  obtain ⟨hleast, hascending⟩ := h.ascending hstart
  refine ⟨fun i hi => ⟨hleast i hi, ?_⟩, hascending, fun p hp _ _ => (hpoints p hp).refusal,
    fun p hp id hid => ?_, ?_⟩
  · obtain ⟨p, hp, hpi⟩ := List.mem_filterMap.mp hi
    have hcourse := hpoints p hp
    cases p <;> cases hpi
    obtain ⟨hpos, rfl⟩ := hcourse
    exact (level_bounds hpos).2
  · obtain ⟨hpos, hle, hge⟩ := (hpoints p hp).node htop hid
    refine ⟨hpos, Nat.lt_of_lt_of_le (level_bounds hpos).2 ?_, hle, hge⟩
    exact Nat.pow_le_pow_right Nat.two_pos (by omega)
  · have hlength := h.length_le hstart
    have heffort : effort l (visit (2 ^ l)) = 2 ^ l * (3 * l + 6) := by
      have hpos := Nat.two_pow_pos l
      simp only [effort, effortBehind]
      rw [← Nat.succ_mul, Nat.pow_succ]
      congr 1
      omega
    omega

end Point
end BuddyTree
