/-
# What a stretch of work keeps

An operation lets others in only where it reports, so a fact about the world that survives every
reaction to a report, and every change of the operation itself between two reports, holds at the
end.  Here this is said once for each loop of the allocator (the second climb of a release, the
pass over a level, and the search that repeats it), once for each call, and once for those who
come in at a record.

The fact is a parameter `P`, and where a loop ends with a node in its hands, what holds then is
another one, `Q`.  Nothing here depends on what they say.
-/
import BuddyTree.Call

namespace BuddyTree

variable {d : Nat} {ε : Type} {obs : Observer d ε} {P : World d ε → Prop}
  {Q : Node d → World d ε → Prop}

/-- Does the record report a block that was free although the index had it? -/
def Record.IsDoubleFree : Record → Prop
  | .alreadyFree _ _ => True
  | _ => False

/-- Reactions keep the fact, whatever is reported but a double free. -/
def Observer.Keeps (obs : Observer d ε) (P : World d ε → Prop) : Prop :=
  ∀ r w, ¬ r.IsDoubleFree → P w → P (obs.react r w)

/-! ## 1. The loops -/

/-- The world after a merge: the announcement is withdrawn, and its side is free. -/
def World.merged (w : World d ε) (r : Node.Rung d) : World d ε :=
  w.mapStore (.mapTree (·.set r.node ((w.store.tree.get r.node).unmark r.child)))

@[simp] theorem World.get_merged_self (w : World d ε) (r : Node.Rung d) :
    (w.merged r).store.tree.get r.node = (w.store.tree.get r.node).unmark r.child :=
  Tree.get_set_self _ _ _

theorem World.get_merged_ne (w : World d ε) {r : Node.Rung d} {a : Node d} (h : r.node ≠ a) :
    (w.merged r).store.tree.get a = w.store.tree.get a :=
  Tree.get_set_ne _ h _

/-- **One merge.**  It is made if the announcement stands, and reported if it is not the last. -/
theorem merge_cons (obs : Observer d ε) (r : Node.Rung d) (rest : List (Node.Rung d))
    (w : World d ε) :
    merge obs (r :: rest) w =
      if (w.store.tree.get r.node).isCoalescing r.child then
        if rest.isEmpty || (w.store.tree.get r.node).isOccupied r.child.other then w.merged r
        else merge obs rest (obs.react (.coalesced r.node.id) (w.merged r))
      else w := by
  have hother : ((w.store.tree.get r.node).unmark r.child).isOccupied r.child.other =
      (w.store.tree.get r.node).isOccupied r.child.other := by
    simp [Status.isOccupied, Side.other_ne]
  rw [merge]
  dsimp only
  rw [hother]
  cases (w.store.tree.get r.node).isCoalescing r.child <;> rfl

/-- **Merging.**  Each merge withdraws an announcement that still stands. -/
theorem merge_rule (hobs : obs.Keeps P) {path : List (Node.Rung d)}
    (hstep : ∀ r ∈ path, ∀ w, P w → (w.store.tree.get r.node).isCoalescing r.child = true →
      P (w.merged r))
    {w : World d ε} (h : P w) : P (merge obs path w) := by
  induction path generalizing w with
  | nil => exact h
  | cons r rest ih =>
    rw [merge_cons]
    split
    · next hc =>
      have h' := hstep r List.mem_cons_self w h hc
      split
      · exact h'
      · exact ih (fun s hs => hstep s (List.mem_cons_of_mem r hs)) (hobs _ _ not_false h')
    · exact h

/-- The fact at the end of a search: `Q` of the node that was claimed, or still `P`. -/
def Ended (P : World d ε → Prop) (Q : Node d → World d ε → Prop) :
    Option (Node d) × World d ε → Prop
  | (none, w) => P w
  | (some n, w) => Q n w

/-- What a claim of one node has to do for a search: a success establishes `Q`, and a refusal
keeps `P`. -/
def Claims (obs : Observer d ε) (top : Nat) (P : World d ε → Prop)
    (Q : Node d → World d ε → Prop) (n : Node d) : Prop :=
  ∀ w, P w → (∀ w', claim obs n top w = (none, w') → Q n w') ∧
    ∀ o w', claim obs n top w = (some o, w') → P w'

/-- The scan goes on to the right of a node whose claim was refused. -/
theorem lt_skipPast_of_claim {n f : Node d} {top : Nat} {w w' : World d ε}
    (hc : claim obs n top w = (some f, w')) : n.id < NodeId.skipPast n.id f.id := by
  obtain ⟨j, hj, hf⟩ := id_of_claim_eq_some (congrArg Prod.fst hc)
  rw [hf]
  exact NodeId.lt_skipPast n.pos hj

/-- **One pass,** by where it stands.  What is known at a node number is known again at the one
where the scan goes on after a refusal; `N` is what holds when no free node is left. -/
theorem pass_rule_at {I : Nat → World d ε → Prop} {N : World d ε → Prop} {top stop : Nat}
    {hstop : stop ≤ 2 ^ (d + 1)} {i : Nat} {hi : 0 < i}
    (hnone : ∀ i w, I i w →
      (∀ x : Node d, i ≤ x.id → x.id < stop → (w.store.tree.get x).isFree = false) → N w)
    (hclaim : ∀ (n : Node d) i w, I i w → i ≤ n.id → n.id < stop →
      (w.store.tree.get n).isFree = true →
      (∀ x : Node d, i ≤ x.id → x.id < n.id → (w.store.tree.get x).isFree = false) →
      (∀ w', claim obs n top w = (none, w') → Q n w') ∧
      ∀ f w', claim obs n top w = (some f, w') →
        let next := NodeId.skipPast n.id f.id
        I next (obs.react (.conflict n.id f.id next) w'))
    {w : World d ε} (h : I i w) : Ended N Q (pass obs top stop hstop i hi w) := by
  fun_induction pass obs top stop hstop i hi w with
  | case1 i hi w hn => exact hnone i w h (Tree.firstFree?_eq_none_iff.mp hn)
  | case2 i hi w n hn w' hc =>
    obtain ⟨h1, h2, h3, h4⟩ := Tree.firstFree?_spec hn
    exact (hclaim n i w h h1 h2 h3 h4).1 w' hc
  | case3 i hi w n hn f w' hc next hnext ih =>
    obtain ⟨h1, h2, h3, h4⟩ := Tree.firstFree?_spec hn
    exact ih ((hclaim n i w h h1 h2 h3 h4).2 f w' hc)

/-- **One pass.** -/
theorem pass_rule (hobs : obs.Keeps P) {top stop : Nat} {hstop : stop ≤ 2 ^ (d + 1)} {i : Nat}
    {hi : 0 < i} (hclaim : ∀ n, i ≤ n.id → n.id < stop → Claims obs top P Q n) {w : World d ε}
    (h : P w) : Ended P Q (pass obs top stop hstop i hi w) := by
  refine pass_rule_at (I := fun j w => i ≤ j ∧ P w) (fun _ _ h _ => h.2) ?_ ⟨Nat.le_refl i, h⟩
  intro n j w ⟨hij, hw⟩ hj hs _ _
  have hn := hclaim n (by omega) hs w hw
  refine ⟨hn.1, fun f w' hc => ⟨?_, hobs _ _ not_false (hn.2 f w' hc)⟩⟩
  have := lt_skipPast_of_claim hc
  omega

/-- **The search.**  It claims nodes of one level only. -/
theorem search_rule (hobs : obs.Keeps P) {top order : Nat}
    (hclaim : ∀ n : Node d, n.level = d - order → Claims obs top P Q n) {w : World d ε} (h : P w) :
    Ended P Q (search obs top order w) := by
  have hpass : ∀ w, P w → Ended P Q (passLevel obs top (d - order) (Nat.sub_le _ _) w) := by
    intro w h
    refine pass_rule hobs (fun n h1 h2 => hclaim n ?_) h
    rw [NodeId.levelStart_eq] at h1 h2
    exact (NodeId.level_eq_iff n.pos).mpr ⟨h1, h2⟩
  have hsince : ∀ before w hb, P w → Ended P Q (searchSince obs top order before w hb) := by
    intro before w hb h
    fun_induction searchSince obs top order before w hb with
    | case1 w n w' hp =>
      have := hpass w h
      rwa [hp] at this
    | case2 w w' hp heq =>
      have := hpass w h
      rw [hp] at this
      exact hobs _ _ not_false this
    | case3 w w' hp hne again ih =>
      have := hpass w h
      rw [hp] at this
      exact ih (hobs _ _ not_false this)
  exact hsince _ w rfl h

/-! ## 2. Calls -/

section Calls

variable {r : Region} {obs : Observer r.depth ε} {P : World r.depth ε → Prop}
  {Q : Node r.depth → World r.depth ε → Prop} {w : World r.depth ε}

/-- **Allocating** is a search, and entering what it found. -/
theorem alloc_rule (hobs : obs.Keeps P) (size : Nat)
    (hsearch : ∀ order, r.geometry.orderFor? size = some order → ∀ w, P w →
      Ended P Q (search obs r.geometry.baseLevel order w))
    (henter : ∀ n w, Q n w → P (w.mapStore (.enter n))) (h : P w) :
    P (r.alloc obs size w).2 := by
  unfold Region.alloc
  split
  · exact h
  · next order hord =>
    have hend := hsearch order hord w h
    split
    · next w' hw =>
      rw [hw] at hend
      exact hend
    · next n w' hw =>
      rw [hw] at hend
      exact hobs _ _ not_false (henter n w' hend)

theorem allocLayout_rule (hmin : 0 < r.geometry.minSize) (hobs : obs.Keeps P)
    (hsearch : ∀ order ≤ r.geometry.maxOrder, ∀ w, P w →
      Ended P Q (search obs r.geometry.baseLevel order w))
    (henter : ∀ n w, Q n w → P (w.mapStore (.enter n))) (layout : Layout) (h : P w) :
    P (r.allocLayout obs layout w).2 := by
  unfold Region.allocLayout
  split
  · exact h
  · refine alloc_rule hobs _ (fun order hord => hsearch order ?_) henter h
    exact Geometry.orderFor?_le hmin hord

/-- **Freeing** releases the node to which the index leads, and succeeds if that does. -/
theorem free_rule (hobs : obs.Keeps P)
    (hrelease : ∀ leaf n w, P w → Node.ofId? r.depth (w.store.entry leaf).toNat = some n →
      (release obs n r.geometry.baseLevel (w.mapStore (.withdraw leaf))).1 = true ∧
      P ((release obs n r.geometry.baseLevel (w.mapStore (.withdraw leaf))).2.mapStore
        (.discharge n)))
    (address : Nat) (h : P w) : P (r.free obs address w).2 := by
  unfold Region.free
  split
  · exact h
  · split
    · next hin =>
      split
      · exact hobs _ _ not_false h
      · dsimp only
        split
        · exact hobs _ _ not_false h
        · next n hn =>
          obtain ⟨htrue, hend⟩ := hrelease _ n w h hn
          split
          · next w' hw =>
            rw [hw] at htrue
            cases htrue
          · next w' hw =>
            rw [hw] at hend
            exact hend
    · exact h

end Calls

/-! ## 3. Watches -/

section Watches

variable {κ ρ : Type} {perform : Watch.Perform d κ ρ} {A : κ → Prop}
  {R : World d (Array Record) → Array (κ × ρ) → Prop}

/-- **Acting,** one action after the other.  What each action keeps, all of them keep. -/
theorem performAll_rule
    (hperform : ∀ c w done, A c → R w done →
      R (perform c w).2 (done.push (c, (perform c w).1))) {actions : List κ}
    (hA : ∀ c ∈ actions, A c) {w : World d (Array Record)} {done : Array (κ × ρ)}
    (h : R w done) :
    R (Watch.performAll perform actions w done).1 (Watch.performAll perform actions w done).2 := by
  induction actions generalizing w done with
  | nil => exact h
  | cons c rest ih =>
    exact ih (fun c hc => hA c (List.mem_cons_of_mem _ hc))
      (hperform c w done (hA c List.mem_cons_self) h)

/-- A hook that still waits after a record waits for the same event as before, with the same
actions. -/
theorem hooks_react (record : Record) (w : World d (Watch κ ρ)) :
    ∀ k ∈ (Watch.react perform record w).env.hooks,
      ∃ k' ∈ w.env.hooks, k.event = k'.event ∧ k.actions = k'.actions := by
  obtain ⟨store, log, hooks, done⟩ := w
  have htick : ∀ e (waiting : List (Hook κ)), (∀ k ∈ waiting, k ∈ hooks) →
      ∀ k ∈ waiting.map (Hook.tick e), ∃ k' ∈ hooks, k.event = k'.event ∧
        k.actions = k'.actions := by
    intro e waiting hsub k hk
    obtain ⟨k', hk', rfl⟩ := List.mem_map.mp hk
    refine ⟨k', hsub k' hk', ?_⟩
    unfold Hook.tick
    split <;> exact ⟨rfl, rfl⟩
  unfold Watch.react
  dsimp only
  split
  · exact fun k hk => ⟨k, hk, rfl, rfl⟩
  · next e _ =>
    split
    · exact htick e hooks fun _ hk => hk
    · exact htick e _ fun _ hk => (List.mem_filter.mp hk).1

/-- **A record** lets those in who wait for it. -/
theorem react_rule
    (hperform : ∀ c w done, A c → R w done →
      R (perform c w).2 (done.push (c, (perform c w).1))) (record : Record)
    {w : World d (Watch κ ρ)}
    (hA : ∀ k ∈ w.env.hooks, record.event? = some k.event → ∀ c ∈ k.actions, A c)
    (h : R ⟨w.store, w.env.log.push record⟩ w.env.done) :
    R ⟨(Watch.react perform record w).store, (Watch.react perform record w).env.log⟩
      (Watch.react perform record w).env.done := by
  obtain ⟨store, log, hooks, done⟩ := w
  unfold Watch.react
  dsimp only
  split
  · exact h
  · next e he =>
    split
    · exact h
    · have hdue : ∀ c ∈ (hooks.filter (Hook.isDue e)).flatMap Hook.actions, A c := by
        intro c hc
        obtain ⟨k, hk, hck⟩ := List.mem_flatMap.mp hc
        obtain ⟨hmem, hd⟩ := List.mem_filter.mp hk
        simp only [Hook.isDue, Bool.and_eq_true, decide_eq_true_eq] at hd
        exact hA k hmem (by rw [he, hd.1]) c hck
      exact performAll_rule hperform hdue h

end Watches
end BuddyTree
