/-
# How long an allocation can take

A pass that nobody interferes with makes the accesses of `Point.step`, one after the other, so it
makes no more of them than a pass can, and all of them within the tree.  Nothing has to be known
about the bytes: each loop stops by its own test.

The search repeats a pass only if a release was counted while it went on.  Nobody counts one but
those who come in, and each of their releases is counted once.

The main facts: `leads_pass` (a pass is a run of accesses), `Leads.bounded` (where these are, and
how many), `exists_passes` and `Passes.le_givenBack` (how many passes a search makes), and
`alloc_passes`.
-/
import BuddyTree.Proofs.Exhaustion
import BuddyTree.Proofs.Termination

namespace BuddyTree

variable {d : Nat}

theorem Node.ofId?_id (x : Node d) : Node.ofId? d x.id = some x := by
  rw [ofId?, dif_pos ⟨x.pos, x.lt⟩]

/-- A climb to a level above goes to the parent first. -/
theorem Node.climb_to {c : Node d} {l : Nat} (h : l < c.level) :
    ∃ p : Node d, NodeId.parent c.id = p.id ∧ p.level + 1 = c.level ∧
      c.climb (c.level - l) = ⟨p, NodeId.side c.id⟩ :: p.climb (p.level - l) := by
  cases hp : c.parent? with
  | none =>
    have := parent?_eq_none hp
    omega
  | some p =>
    have hlevel := level_parent? hp
    refine ⟨p, (id_parent? hp).1.symm, hlevel, ?_⟩
    rw [show c.level - l = p.level - l + 1 by omega, climb_succ hp]
    rfl

theorem Node.isEmpty_climb (c : Node d) (l : Nat) :
    (c.climb (c.level - l)).isEmpty = decide (c.level ≤ l) := by
  by_cases h : l < c.level
  · obtain ⟨p, -, -, hclimb⟩ := climb_to h
    rw [hclimb, decide_eq_false (by omega)]
    rfl
  · rw [show c.level - l = 0 by omega, decide_eq_true (by omega)]
    rfl

theorem Tree.set_get (t : Tree d) (x : Node d) : t.set x (t.get x) = t := by
  simp [set, get]

theorem Tree.markPath_cons (t : Tree d) (r : Node.Rung d) (rest : List (Node.Rung d)) :
    t.markPath (r :: rest) =
      if (t.get r.node).has .block then (some r.node, t)
      else (t.set r.node (((t.get r.node).withdraw r.child).mark r.child)).markPath rest := rfl

theorem Tree.announce_cons (t : Tree d) (r : Node.Rung d) (rest : List (Node.Rung d)) :
    t.announce (r :: rest) =
      if (t.get r.node).isOccupied r.child.other && !(t.get r.node).isCoalescing r.child.other then
        t.set r.node ((t.get r.node).announce r.child)
      else (t.set r.node ((t.get r.node).announce r.child)).announce rest := rfl

namespace Point

/-! ## 1. A pass is a run of accesses -/

section Loops

variable {n owner c : Node d} {top : Nat}

theorem markFrom_of_le (h : c.level ≤ top) : markFrom top n.id c.id = found n.id :=
  if_neg (Nat.not_lt.mpr h)

theorem markFrom_of_lt (h : top < c.level) : markFrom top n.id c.id = mark n.id c.id :=
  if_pos h

theorem announceFrom_of_le (h : c.level ≤ owner.level + 1) :
    announceFrom n.id owner.id c.id = clear n.id owner.id :=
  if_neg (Nat.not_lt.mpr h)

theorem announceFrom_of_lt (h : owner.level + 1 < c.level) :
    announceFrom n.id owner.id c.id = announce n.id owner.id c.id :=
  if_pos h

end Loops

variable (top stop : Nat)

theorem step_node {p : Point} {x : Node d} (h : p.node? = some x.id) (t : Tree d) :
    p.step top stop t = some (p.next top stop (t.get x), t.set x (p.write (t.get x))) :=
  step_eq_some_iff.mpr ⟨x.id, x, h, x.ofId?_id, rfl, rfl⟩

/-- **Candidates.**  Nodes that are not free are looked at and left as they are. -/
theorem leads_firstFree? (t : Tree d) (hstop : stop ≤ 2 ^ (d + 1)) (i : Nat) (hi : 0 < i) :
    ∃ points, Leads top stop (visitFrom stop i) t points
      (match t.firstFree? stop hstop i hi with
        | none => nothing
        | some n => visit n.id) t := by
  fun_induction Tree.firstFree? t stop hstop i hi with
  | case1 i hi hlt n hfree =>
    rw [visitFrom, if_pos hlt]
    exact ⟨[], .refl _ _⟩
  | case2 i hi hlt n hfree ih =>
    obtain ⟨points, hrest⟩ := ih
    have hbusy : t.get n ≠ .clear := fun he => hfree (by rw [he]; decide)
    have hstep : (visit i).step top stop t = some (visitFrom stop (i + 1), t) := by
      rw [step_node top stop (x := n) rfl, next, write, if_pos (by simpa using hfree), if_neg hbusy,
        Tree.set_get]
    rw [visitFrom, if_pos hlt]
    exact ⟨_, .step hstep hrest⟩
  | case3 i hi hlt =>
    rw [visitFrom, if_neg hlt]
    exact ⟨[], .refl _ _⟩

/-- Where the marks of a claim end. -/
def marked (n : Node d) : Option (Node d) → Point
  | none => found n.id
  | some owner => giveUp n.id owner.id

/-- **Marks.** -/
theorem leads_markPath (n c : Node d) (t : Tree d) :
    ∃ points, Leads top stop (markFrom top n.id c.id) t points
      (marked n (t.markPath (c.climb (c.level - top))).1)
      (t.markPath (c.climb (c.level - top))).2 := by
  obtain ⟨k, hk⟩ : ∃ k, c.level < top + k + 1 := ⟨c.level, by omega⟩
  induction k generalizing c t with
  | zero =>
    rw [markFrom_of_le (by omega), show c.level - top = 0 by omega]
    exact ⟨[], .refl _ _⟩
  | succ k ih =>
    by_cases hc : top < c.level
    · obtain ⟨p, hid, hlevel, hclimb⟩ := Node.climb_to hc
      have hstep := step_node top stop (p := mark n.id c.id)
        (congrArg some hid) t
      rw [next, write, hid] at hstep
      rw [markFrom_of_lt hc, hclimb, Tree.markPath_cons]
      split at hstep
      · next hblock =>
        rw [Tree.set_get] at hstep
        rw [if_pos hblock]
        exact ⟨_, .single hstep⟩
      · next hblock =>
        rw [if_neg hblock]
        obtain ⟨points, hrest⟩ := ih p _ (by omega)
        exact ⟨_, .step hstep hrest⟩
    · rw [markFrom_of_le (by omega), show c.level - top = 0 by omega]
      exact ⟨[], .refl _ _⟩

/-- **Announcements.** -/
theorem leads_announce (n owner c : Node d) (t : Tree d) :
    ∃ points, Leads top stop (announceFrom n.id owner.id c.id) t points (clear n.id owner.id)
      (t.announce (c.climb (c.level - (owner.level + 1)))) := by
  obtain ⟨k, hk⟩ : ∃ k, c.level < owner.level + 1 + k + 1 := ⟨c.level, by omega⟩
  induction k generalizing c t with
  | zero =>
    rw [announceFrom_of_le (by omega), show c.level - (owner.level + 1) = 0 by omega]
    exact ⟨[], .refl _ _⟩
  | succ k ih =>
    by_cases hc : owner.level + 1 < c.level
    · obtain ⟨p, hid, hlevel, hclimb⟩ := Node.climb_to hc
      have hstep := step_node top stop (p := announce n.id owner.id c.id)
        (congrArg some hid) t
      rw [next, write, hid] at hstep
      rw [announceFrom_of_lt hc, hclimb, Tree.announce_cons]
      split at hstep
      · next hends =>
        rw [if_pos hends]
        exact ⟨_, .single hstep⟩
      · next hends =>
        rw [if_neg hends]
        obtain ⟨points, hrest⟩ := ih p _ (by omega)
        exact ⟨_, .step hstep hrest⟩
    · rw [announceFrom_of_le (by omega), show c.level - (owner.level + 1) = 0 by omega]
      exact ⟨[], .refl _ _⟩

/-- **Merges.** -/
theorem leads_merge (n owner c : Node d) (w : World d Unit) (hc : owner.level + 1 < c.level) :
    ∃ points, Leads top stop (merge n.id owner.id c.id) w.store.tree points
      (visitFrom stop (NodeId.skipPast n.id owner.id))
      (BuddyTree.merge (silent d) (c.climb (c.level - (owner.level + 1))) w).store.tree := by
  obtain ⟨k, hk⟩ : ∃ k, c.level < owner.level + 1 + k + 1 := ⟨c.level, by omega⟩
  induction k generalizing c w with
  | zero => omega
  | succ k ih =>
    obtain ⟨p, hid, hlevel, hclimb⟩ := Node.climb_to hc
    have hstep := step_node top stop (p := merge n.id owner.id c.id)
      (congrArg some hid) w.store.tree
    rw [next, write, hid] at hstep
    rw [hclimb, merge_cons, Node.isEmpty_climb]
    dsimp only
    by_cases hann : (w.store.tree.get p).isCoalescing (NodeId.side c.id) = true
    · rw [if_pos hann, hann, Status.isOccupied_unmark, decide_eq_false (Side.other_ne _),
        Bool.not_false, Bool.and_true, show NodeId.level p.id = p.level from rfl,
        show NodeId.level owner.id = owner.level from rfl] at hstep
      rw [if_pos hann]
      split
      · next hlast =>
        rw [if_pos (by simpa using hlast)] at hstep
        exact ⟨_, .single hstep⟩
      · next hgoes =>
        rw [if_neg (by simpa using hgoes)] at hstep
        obtain ⟨points, hrest⟩ := ih p (w.merged ⟨p, NodeId.side c.id⟩)
          (by simp at hgoes; omega) (by omega)
        exact ⟨_, .step hstep hrest⟩
    · rw [if_neg hann, Tree.set_get, if_pos (by simp [hann])] at hstep
      rw [if_neg hann]
      exact ⟨_, .single hstep⟩

/-- **Giving up a claim** leads to the visits behind what refused it. -/
theorem leads_release (n owner : Node d) (w : World d Unit) (h : owner.level < n.level) :
    ∃ points, Leads top stop (giveUp n.id owner.id) w.store.tree points
      (visitFrom stop (NodeId.skipPast n.id owner.id))
      (release (silent d) n (owner.level + 1) w).2.store.tree := by
  have hstep := step_node top stop (p := giveUp n.id owner.id) (x := n) rfl
    w.store.tree
  rw [next, write, Tree.set_get] at hstep
  rw [release, mergeHeight_of_le h]
  split at hstep
  · next hfree =>
    rw [if_pos hfree]
    exact ⟨_, .single hstep⟩
  · next hfree =>
    rw [if_neg hfree]
    obtain ⟨points, hannounced⟩ := leads_announce top stop n owner n w.store.tree
    have hclear := step_node top stop (p := clear n.id owner.id) (x := n) rfl
      (w.store.tree.announce (n.climb (n.level - (owner.level + 1))))
    rw [next, write] at hclear
    split at hclear
    · next hlevel =>
      have hnone : n.level - (owner.level + 1) = 0 := by
        rw [Node.level, hlevel]
        exact Nat.sub_self _
      rw [hnone] at hannounced hclear ⊢
      exact ⟨_, .step hstep (hannounced.append (.single hclear))⟩
    · next hlevel =>
      obtain ⟨points', hmerged⟩ := leads_merge top stop n owner n
        (w.mapStore (.mapTree fun t =>
          (t.announce (n.climb (n.level - (owner.level + 1)))).set n .clear))
        (Nat.lt_of_le_of_ne h (Ne.symm hlevel))
      exact ⟨_, .step hstep (hannounced.append (.step hclear hmerged))⟩

/-- Where the claim of a candidate ends. -/
def claimed (stop : Nat) (n : Node d) : Option (Node d) → Point
  | none => found n.id
  | some f => visitFrom stop (NodeId.skipPast n.id f.id)

/-- **A claim** ends with its node, or leads to the visits behind what refused it. -/
theorem leads_claim (n : Node d) (w : World d Unit) (hfree : (w.store.tree.get n).isFree = true) :
    ∃ points, Leads top stop (visit n.id) w.store.tree points
      (claimed stop n (claim (silent d) n top w).1) (claim (silent d) n top w).2.store.tree := by
  have hstep := step_node top stop (p := visit n.id) (x := n) rfl w.store.tree
  rw [next, write, if_neg (by simp [hfree])] at hstep
  split at hstep
  · next hclear =>
    obtain ⟨points, hmarked⟩ := leads_markPath top stop n n
      (w.store.tree.set n .busy)
    rw [claim_eq _ hclear]
    dsimp only
    change Leads top stop _ _ points (marked n (Metadata.marked n top w.store.tree).1)
      (w.mapStore (.withMarks n top)).store.tree at hmarked
    cases hm : (Metadata.marked n top w.store.tree).1 with
    | none =>
      rw [hm] at hmarked
      exact ⟨_, .step hstep hmarked⟩
    | some owner =>
      rw [hm] at hmarked
      obtain ⟨r, hr, rfl⟩ := mem_of_markPath_eq_some hm
      obtain ⟨points', hreleased⟩ := leads_release top stop n r.node
        (w.mapStore (.withMarks n top)) (Node.mem_climb_iff.mp hr).1.level_lt
      exact ⟨_, .step hstep (hmarked.append hreleased)⟩
  · next hclear =>
    rw [Tree.set_get] at hstep
    rw [claim, if_neg hclear]
    exact ⟨_, .single hstep⟩

/-- **A pass** that nobody interferes with is a run of accesses. -/
theorem leads_pass (hstop : stop ≤ 2 ^ (d + 1)) (i : Nat) (hi : 0 < i) (w : World d Unit) :
    ∃ points, Leads top stop (visitFrom stop i) w.store.tree points
      (ended (pass (silent d) top stop hstop i hi w).1)
      (pass (silent d) top stop hstop i hi w).2.store.tree := by
  fun_induction pass (silent d) top stop hstop i hi w with
  | case1 i hi w hn =>
    obtain ⟨points, hvisits⟩ := leads_firstFree? top stop w.store.tree hstop i hi
    rw [hn] at hvisits
    exact ⟨points, hvisits⟩
  | case2 i hi w n hn w' hc =>
    obtain ⟨points, hvisits⟩ := leads_firstFree? top stop w.store.tree hstop i hi
    obtain ⟨points', hclaim⟩ := leads_claim top stop n w
      (Tree.firstFree?_spec hn).2.2.1
    rw [hn] at hvisits
    rw [hc] at hclaim
    exact ⟨_, hvisits.append hclaim⟩
  | case3 i hi w n hn f w' hc next hnext ih =>
    obtain ⟨points, hvisits⟩ := leads_firstFree? top stop w.store.tree hstop i hi
    obtain ⟨points', hclaim⟩ := leads_claim top stop n w
      (Tree.firstFree?_spec hn).2.2.1
    obtain ⟨points'', hrest⟩ := ih
    rw [hn] at hvisits
    rw [hc] at hclaim
    exact ⟨_, hvisits.append (hclaim.append hrest)⟩

end Point

/-! ## 2. What else a pass changes -/

theorem Metadata.SameBooks.eq_mapTree {m m' : Metadata d} (h : m.SameBooks m') :
    m' = m.mapTree fun _ => m'.tree := by
  obtain ⟨tree, index, live, released⟩ := m
  obtain ⟨tree', index', live', released'⟩ := m'
  obtain ⟨rfl, rfl, rfl⟩ := h
  rfl

/-- **Nothing but the tree.** -/
theorem store_pass (top stop : Nat) (hstop : stop ≤ 2 ^ (d + 1)) (i : Nat) (hi : 0 < i)
    (w : World d Unit) :
    (pass (silent d) top stop hstop i hi w).2.store =
      w.store.mapTree fun _ => (pass (silent d) top stop hstop i hi w).2.store.tree := by
  have hclaim : ∀ n : Node d, Claims (silent d) top (fun v => w.store.SameBooks v.store)
      (fun _ v => w.store.SameBooks v.store) n := fun n =>
    claim_rule (fun v hv _ _ => hv.trans (books_mapTree _ v)) fun v o hv _ _ =>
      (hv.trans (books_mapTree _ v)).trans (books_release letsPass_silent n (o.level + 1) _)
  have hend : Ended _ _ (pass (silent d) top stop hstop i hi w) :=
    pass_rule (keeps_silent _) (fun n _ _ => hclaim n) (.refl w.store)
  generalize pass (silent d) top stop hstop i hi w = result at hend ⊢
  obtain ⟨_ | n, v⟩ := result
  · exact hend.eq_mapTree
  · exact hend.eq_mapTree

/-- **A pass over a level** that nobody interferes with. -/
theorem passLevel_alone (top : Nat) {l : Nat} (hl : l ≤ d) (m : Metadata d) :
    ∃ points found tree,
      Point.Leads top (2 ^ (l + 1)) (.visit (2 ^ l)) m.tree points (.ended found) tree ∧
      passLevel (silent d) top l hl ⟨m, ()⟩ = (found, ⟨m.mapTree fun _ => tree, ()⟩) := by
  unfold passLevel
  simp only [NodeId.levelStart_eq]
  have hstop : 2 ^ (l + 1) ≤ 2 ^ (d + 1) := Nat.pow_le_pow_right Nat.two_pos (by omega)
  have hstart : 2 ^ l < 2 ^ (l + 1) := Nat.pow_lt_pow_right Nat.one_lt_two (Nat.lt_succ_self l)
  have hpos := Nat.two_pow_pos l
  obtain ⟨points, hleads⟩ := Point.leads_pass top _ hstop (2 ^ l) hpos ⟨m, ()⟩
  have hstore := store_pass top _ hstop (2 ^ l) hpos ⟨m, ()⟩
  rw [Point.visitFrom, if_pos hstart] at hleads
  exact ⟨points, _, _, hleads, by rw [← hstore]⟩

/-! ## 3. How many passes -/

/-- The search from `w` makes `k` passes.  The last one claims `found`, and `v` is the world after
the search. -/
inductive Passes {ε : Type} (obs : Observer d ε) (top order : Nat) :
    World d ε → Nat → Option (Node d) → World d ε → Prop where
  | found {w v : World d ε} {n : Node d} :
      passLevel obs top (d - order) (Nat.sub_le _ _) w = (some n, v) →
      Passes obs top order w 1 (some n) v
  | exhausted {w v : World d ε} :
      passLevel obs top (d - order) (Nat.sub_le _ _) w = (none, v) →
      v.store.released = w.store.released →
      Passes obs top order w 1 none (obs.react (.exhausted order) v)
  | again {w w' v : World d ε} {k : Nat} {found : Option (Node d)} :
      passLevel obs top (d - order) (Nat.sub_le _ _) w = (none, w') →
      w'.store.released ≠ w.store.released →
      Passes obs top order (obs.react (.rescanning order) w') k found v →
      Passes obs top order w (k + 1) found v

/-- **A search** is so many passes. -/
theorem exists_passes {ε : Type} (obs : Observer d ε) (top order : Nat) (w : World d ε) :
    ∃ k, Passes obs top order w k (search obs top order w).1 (search obs top order w).2 := by
  have hsince : ∀ before w hb, ∃ k, Passes obs top order w k
      (searchSince obs top order before w hb).1 (searchSince obs top order before w hb).2 := by
    intro before w hb
    fun_induction searchSince obs top order before w hb with
    | case1 w n v hp => exact ⟨1, .found hp⟩
    | case2 w v hp heq => exact ⟨1, .exhausted hp heq⟩
    | case3 w v hp again hne ih =>
      obtain ⟨k, hrest⟩ := ih
      exact ⟨k + 1, .again hp hne hrest⟩
  exact hsince _ w rfl

theorem Passes.search_eq {ε : Type} {obs : Observer d ε} {top order k : Nat} {w v : World d ε}
    {found : Option (Node d)} (h : Passes obs top order w k found v) :
    search obs top order w = (found, v) := by
  induction h with
  | found hp => rw [BuddyTree.search_eq, hp]
  | exhausted hp heq => rw [BuddyTree.search_eq, hp]; exact if_pos heq
  | again hp hne _ ih => rw [BuddyTree.search_eq, hp]; exact (if_neg hne).trans ih

section Others

variable {r : Region} {l order k : Nat} {w v : World r.depth (Watch Call Reply)}
  {found : Option (Node r.depth)}

/-- **Those who come in** keep the metadata sound, and what they do is counted. -/
theorem keeps_standing_since (hr : r.Managed) (u : World r.depth (Watch Call Reply)) :
    r.others.Keeps (Standing r.geometry.baseLevel fun w => u.Since w) := by
  intro record w hrec h
  have hbelow : ∀ a : Node r.depth, ¬ r.depth + 1 ≤ a.level := fun a ha => by
    have := a.level_le
    omega
  have hlegible : w.store.Legible r.geometry.baseLevel (r.depth + 1) :=
    ⟨h.1, fun a _ ha => absurd ha (hbelow a)⟩
  obtain ⟨hend, hsince⟩ := keeps_since hr u record w hrec ⟨hlegible, h.2⟩
  exact ⟨hend.toSound, hsince⟩

/-- **One pass,** with others in between. -/
theorem since_pass (hr : r.Managed) (hl : r.geometry.baseLevel ≤ l) (hld : l ≤ r.depth)
    (h : w.store.Sound r.geometry.baseLevel) :
    Ended (Standing r.geometry.baseLevel fun v => w.Since v) (fun _ v => w.Since v)
      (passLevel r.others r.geometry.baseLevel l hld w) := by
  have hblind : TreeBlind fun v : World r.depth (Watch Call Reply) => w.Since v :=
    fun v _ hv => hv.trans (.of_extends (books_mapTree _ v).extends)
  refine pass_rule (keeps_standing_since hr w) (fun n hn hs v hv => ?_) ⟨h, .refl _ _⟩
  rw [NodeId.levelStart_eq] at hn hs
  have hlevel : n.level = l := (NodeId.level_eq_iff n.pos).mpr ⟨hn, hs⟩
  obtain ⟨hclaimed, hrefused⟩ := standing_claim hblind (keeps_standing_since hr w)
    (n := n) (by omega) v hv
  exact ⟨fun v' hc => (hclaimed v' hc).2, hrefused⟩

/-- What others have done is not undone by a record. -/
theorem history_react (record : Record) (w : World r.depth (Watch Call Reply)) :
    w.env.done.toList <+: (r.others.react record w).env.done.toList := by
  refine react_rule (A := fun _ => True) (R := fun _ done => w.env.done.toList <+: done.toList)
    (fun c v done _ h => ?_) record (fun _ _ _ _ _ => trivial) List.prefix_rfl
  rw [Array.toList_push]
  exact h.trans (List.prefix_append _ _)

theorem history_answer (bytes order : Nat) (found : Option (Node r.depth))
    (w : World r.depth (Watch Call Reply)) : w.env.done.toList <+:
      (r.answer r.others bytes order (found, w)).2.env.done.toList := by
  cases found with
  | none => exact List.prefix_rfl
  | some n => exact history_react (.claimed n.id order n.firstLeaf) (w.mapStore (.enter n))

/-- **Each further pass** is made for a block that was given back. -/
theorem Passes.le_givenBack (hr : r.Managed) (ho : r.geometry.baseLevel ≤ r.depth - order)
    (hp : Passes r.others r.geometry.baseLevel order w k found v)
    (h : w.store.Sound r.geometry.baseLevel) :
    k + givenBack w.env.done.toList ≤ givenBack v.env.done.toList + 1 := by
  induction hp with
  | found hpass =>
    have hend := since_pass hr ho (Nat.sub_le _ _) h
    rw [hpass] at hend
    have := givenBack_mono hend.history
    omega
  | @exhausted w v hpass _ =>
    have hend := since_pass hr ho (Nat.sub_le _ _) h
    rw [hpass] at hend
    have := givenBack_mono hend.2.history
    have := givenBack_mono (history_react (.exhausted order) v)
    omega
  | @again w w' v k found hpass hne _ ih =>
    have hend := since_pass hr ho (Nat.sub_le _ _) h
    rw [hpass] at hend
    have hrest := ih (keeps_standing_since hr w (.rescanning order) w' not_false hend).1
    have hmore : givenBack w.env.done.toList ≠ givenBack w'.env.done.toList := by
      intro heq
      have hreleased := hend.2.released
      rw [heq, UInt64.add_left_inj] at hreleased
      exact hne hreleased
    have := givenBack_mono hend.2.history
    have := givenBack_mono (history_react (.rescanning order) w')
    omega

end Others

/-! ## 4. Allocating -/

/-- **An allocation ends.**  If nobody interferes it is one pass over the level of its order,
whatever the metadata: a run of accesses that visits its candidates from the left to the right,
stays between the base level and that level, and ends, without an access outside the tree or the
index.  With others in between, after any history, it makes at most one pass more than they give
blocks back. -/
theorem alloc_passes {base size : Nat} {config : Config} {r : Region}
    (h : Region.of base size config = .ok r) {bytes order : Nat}
    (ho : r.geometry.orderFor? bytes = some order) :
    let top := r.geometry.baseLevel
    let l := r.depth - order
    (∀ m : Metadata r.depth, ∃ points found tree,
      Point.Leads top (2 ^ (l + 1)) (.visit (2 ^ l)) m.tree points (.ended found) tree ∧
      Point.Bounded r.depth top l points ∧
      (∀ n ∈ found, n.level = l ∧ NodeId.firstLeaf n.id r.depth < r.geometry.leaves) ∧
      r.call (.alloc bytes) m =
        match found with
        | none => (.allocated (.error (.outOfMemory bytes)), m.mapTree fun _ => tree)
        | some n => (.allocated (.ok (r.addressOf n)), (m.mapTree fun _ => tree).enter n)) ∧
    ∀ (cs : List Call) (hooks : List (Hook Call)),
      let m := (r.calls cs (.blank _)).2
      let result := r.interrupted (.alloc bytes) hooks m
      (∃ k found v, Passes r.others top order ⟨m, .start hooks⟩ k found v) ∧
      ∀ k found v, Passes r.others top order ⟨m, .start hooks⟩ k found v →
        (result.1, ⟨result.2.2, result.2.1⟩) = r.answer r.others bytes order (found, v) ∧
        k ≤ givenBack result.2.1.done.toList + 1 := by
  intro top l
  have hr := Region.managed_of h
  have htop : top ≤ l := hr.baseLevel_le_sub (Geometry.orderFor?_le hr.minSize_pos ho)
  have hl : l ≤ r.depth := Nat.sub_le _ _
  constructor
  · intro m
    obtain ⟨points, found, tree, hleads, hpass⟩ := passLevel_alone top hl m
    have hcall : r.call (.alloc bytes) m =
        ((r.answer (silent _) bytes order (found, ⟨m.mapTree fun _ => tree, ()⟩)).1,
          (r.answer (silent _) bytes order (found, ⟨m.mapTree fun _ => tree, ()⟩)).2.store) := by
      rw [← hpass, ← search_silent, ← r.alloc_eq_answer (silent _) ho]
      rfl
    refine ⟨points, found, tree, hleads, hleads.bounded htop hl, fun n hn => ⟨?_, ?_⟩, ?_⟩
    · obtain rfl : found = some n := hn
      exact (hleads.onCourse ⟨Nat.two_pow_pos l, Nat.log2_two_pow⟩).2.2
    · exact n.firstLeaf.isLt
    · rw [hcall]
      cases found <;> rfl
  · intro cs hooks m result
    have hsound : m.Sound top := (mirrors_calls hr cs).toAtRest.toSound
    obtain ⟨k, hpasses⟩ := exists_passes r.others top order ⟨m, .start hooks⟩
    refine ⟨⟨k, _, _, hpasses⟩, fun k found v hpasses => ?_⟩
    have hanswer : (result.1, ⟨result.2.2, result.2.1⟩) =
        r.answer r.others bytes order (found, v) := by
      rw [← hpasses.search_eq, ← r.alloc_eq_answer r.others ho]
      rfl
    have hcount := hpasses.le_givenBack hr htop hsound
    have hlater := givenBack_mono (history_answer bytes order found v)
    rw [← hanswer] at hlater
    exact ⟨hanswer, Nat.le_trans hcount (Nat.succ_le_succ hlater)⟩

/-- Every byte of a tree announces a release that nobody made; and the one block of a region is
given back and taken again while a granule is looked for. -/
theorem alloc_passes_of_leftovers :
    let r : Region := ⟨4096, ⟨1, 3, 0⟩⟩
    let m : Metadata r.depth := { Metadata.blank r.depth with tree := ⟨.replicate _ ⟨4⟩⟩ }
    let hooks : List (Hook Call) := [⟨.conflict, 1, [.free 4096, .alloc 8]⟩]
    let m' := (r.calls [.alloc 8] (.blank _)).2
    let result := r.interrupted (.alloc 1) hooks m'
    Region.of 4096 8 ⟨1, 3⟩ = .ok r ∧ r.geometry.orderFor? 1 = some 0 ∧
      (∃ points tree, ∃ found : Option (Node r.depth),
        Point.Leads 0 16 (.visit 8) m.tree points (.ended found) tree ∧
        Point.Bounded 3 0 3 points) ∧
      givenBack result.2.1.done.toList = 1 ∧
      ∃ k found v, Passes r.others 0 0 ⟨m', .start hooks⟩ k found v ∧ k ≤ 2 := by
  intro r m hooks m' result
  have hr : Region.of 4096 8 ⟨1, 3⟩ = .ok r := rfl
  have ho : r.geometry.orderFor? 1 = some 0 := by decide
  obtain ⟨halone, hothers⟩ := alloc_passes hr ho
  obtain ⟨points, found, tree, hleads, hbounded, -⟩ := halone m
  obtain ⟨⟨k, found', v, hpasses⟩, hmost⟩ := hothers [.alloc 8] hooks
  obtain ⟨-, hk⟩ := hmost k found' v hpasses
  have hback : givenBack result.2.1.done.toList = 1 := by decide +kernel
  exact ⟨hr, ho, ⟨points, tree, found, hleads, hbounded⟩, hback, k, found', v, hpasses,
    Nat.le_trans hk (Nat.le_of_eq (congrArg (· + 1) hback))⟩

end BuddyTree
