/-
# A release in one moment

A release that others come in between takes effect at one moment.  There is a place among the calls
that came in at which a release that nobody interferes with gives the same: put there, it changes no
reply of the others, and all metadata is the same in the end.

The place is just before the first call that takes a block from under the node that the release has
reached, or after all of them.  Up to there the sequential run has not begun the release, and the
release is half way up from where that run stands; from there on only its count is missing.

The others must not free the address that is being released before it is handed out again.  That
can be read off the calls and replies (`spares`).

The main facts: `Explained.call` (one call that comes in), `finished_merge` (the whole climb), and
`interrupted_free_eq_calls`.
-/
import BuddyTree.Proofs.History
import BuddyTree.Proofs.Midway

namespace BuddyTree

/-! ## 1. Who may free an address -/

/-- Does the call give this address back? -/
def Call.frees (address : Nat) : Call → Bool
  | .free a => a == address
  | _ => false

/-- Does the reply hand this address out? -/
def Reply.hands (address : Nat) : Reply → Bool
  | .allocated (.ok a) => a == address
  | _ => false

/-- No call frees the address before a reply has handed it out. -/
def spares (address : Nat) : List (Call × Reply) → Bool
  | [] => true
  | (c, reply) :: rest => !c.frees address && (reply.hands address || spares address rest)

/-- One more call may free the address if some reply before has handed it out. -/
theorem spares_concat (address : Nat) (done : List (Call × Reply)) (c : Call) (reply : Reply) :
    spares address (done ++ [(c, reply)]) =
      (spares address done && (done.any (fun p => p.2.hands address) || !c.frees address)) := by
  induction done with
  | nil => simp [spares]
  | cons p rest ih =>
    obtain ⟨c', reply'⟩ := p
    simp only [List.cons_append, spares, ih, List.any_cons]
    cases reply'.hands address <;> cases c'.frees address <;> simp

/-- One more call at the end of a history. -/
theorem Region.calls_concat (r : Region) {cs : List Call} {c : Call} {m m' : Metadata r.depth}
    {replies : List Reply} (h : r.calls cs m = (replies, m')) :
    r.calls (cs ++ [c]) m = (replies ++ [(r.call c m').1], (r.call c m').2) := by
  rw [calls_append, h]
  rfl

/-! ## 2. Explanations -/

section Explanations

variable {r : Region} {m₀ m : Metadata r.depth} {n y : Node r.depth} {done : List (Call × Reply)}

/-- The calls that have come in so far, one after the other from `m₀`, have given the same replies,
and from where they lead the release has reached node `y`.  Nobody was given its address. -/
structure Pending (r : Region) (m₀ : Metadata r.depth) (n y : Node r.depth)
    (m : Metadata r.depth) (done : List (Call × Reply)) : Prop where
  kept : ∀ p ∈ done, p.2.hands (r.addressOf n) = false
  sequence : ∃ s, r.calls (done.map Prod.fst) m₀ = (done.map Prod.snd, s) ∧
    s.Midway m r.geometry.baseLevel n y

/-- With the release somewhere in between, the calls that have come in so far have given the same
replies one after the other; but for the count of the release they lead to the same metadata. -/
structure Finished (r : Region) (m₀ : Metadata r.depth) (n : Node r.depth)
    (m : Metadata r.depth) (done : List (Call × Reply)) : Prop where
  rest : m.AtRest r.geometry.baseLevel
  sequence : ∃ before after, done = before ++ after ∧
    r.calls (before.map Prod.fst ++ .free (r.addressOf n) :: after.map Prod.fst) m₀ =
      (before.map Prod.snd ++ .freed (.ok ()) :: after.map Prod.snd, m.discharge n)

/-- The release is pending or finished, if the others have spared its address. -/
def Explained (r : Region) (m₀ : Metadata r.depth) (n y : Node r.depth)
    (m : Metadata r.depth) (done : List (Call × Reply)) : Prop :=
  spares (r.addressOf n) done = true → Pending r m₀ n y m done ∨ Finished r m₀ n m done

/-- The sequential release of a recorded block at rest. -/
theorem Metadata.AtRest.call_free (hr : r.Managed) (h : m.AtRest r.geometry.baseLevel)
    (hn : m.Records n) :
    r.call (.free (r.addressOf n)) m = (.freed (.ok ()), m.giveBack n r.geometry.baseLevel) :=
  free_recorded hr hn (h.level hn) (h.toSound.isFree_of_records hn)

/-- **When nothing is announced any more** a pending release is finished. -/
theorem Pending.finish (hr : r.Managed) (h : Pending r m₀ n y m done) {m' : Metadata r.depth}
    (hrest : m'.AtRest r.geometry.baseLevel) (hb : m.SameBooks m') : Finished r m₀ n m' done := by
  obtain ⟨s, hcalls, hmidway⟩ := h.sequence
  refine ⟨hrest, done, [], (List.append_nil _).symm, ?_⟩
  rw [List.map_nil, r.calls_concat hcalls, hmidway.rest.call_free hr hmidway.recorded,
    hmidway.eq_giveBack hrest hb]
  rfl

/-- **A call that comes in** is explained: it leaves the release pending, finishes it, or comes
after it. -/
theorem Explained.call (hr : r.Managed) (h : Explained r m₀ n y m done) (c : Call) :
    Explained r m₀ n y (r.call c m).2 (done ++ [(c, (r.call c m).1)]) := by
  intro hs
  rw [spares_concat, Bool.and_eq_true] at hs
  obtain ⟨hs, hc⟩ := hs
  rcases h hs with ⟨hkept, s, hcalls, hmidway⟩ | ⟨hrest, before, after, rfl, hcalls⟩
  · have hnone : done.any (fun p => p.2.hands (r.addressOf n)) = false :=
      List.any_eq_false.mpr fun p hp => by simp [hkept p hp]
    have hne : c ≠ .free (r.addressOf n) := by
      rintro rfl
      simp [hnone, Call.frees] at hc
    rcases hmidway.call hr c hne with ⟨hreply, hfresh, hmidway'⟩ | ⟨hrest, hsame⟩
    · refine .inl ⟨fun p hp => ?_, _, ?_, hmidway'⟩
      · rcases List.mem_append.mp hp with hp | hp
        · exact hkept p hp
        · obtain rfl := List.mem_singleton.mp hp
          refine (Bool.not_eq_true _).mp fun hgiven => hfresh ?_
          unfold Reply.hands at hgiven
          split at hgiven
          · next a he =>
            obtain rfl := beq_iff_eq.mp hgiven
            exact he
          · cases hgiven
      · simp only [List.map_append, List.map_cons, List.map_nil, r.calls_concat hcalls, hreply]
    · refine .inr ⟨hrest, done, [(c, (r.call c m).1)], rfl, ?_⟩
      have hfree := r.calls_concat (c := .free (r.addressOf n)) hcalls
      rw [hmidway.rest.call_free hr hmidway.recorded] at hfree
      have hboth := r.calls_concat (c := c) hfree
      rw [hsame] at hboth
      simpa using hboth
  · refine .inr ⟨?_, before, after ++ [(c, (r.call c m).1)], List.append_assoc _ _ _, ?_⟩
    · exact atRest_call hr c hrest
    · have hnext := r.calls_concat (c := c) hcalls
      rw [hrest.call_discharge hr n c] at hnext
      simpa using hnext

/-! ## 3. The climb -/

variable {w : World r.depth (Watch Call Reply)}

/-- **A record** lets calls in, and each of them is explained. -/
theorem Explained.react (hr : r.Managed) (record : Record)
    (h : Explained r m₀ n y w.store w.env.done.toList) :
    let w' := r.others.react record w
    Explained r m₀ n y w'.store w'.env.done.toList := by
  have hstep : ∀ c (v : World r.depth (Array Record)) (done : Array (Call × Reply)), True →
      Explained r m₀ n y v.store done.toList →
      Explained r m₀ n y (c.perform r (recorder _) v).2.store
        (done.push (c, (c.perform r (recorder _) v).1)).toList := by
    intro c v done _ hv
    have hcall := hv.call hr c
    rwa [perform_recorder, ← Array.toList_push] at hcall
  exact react_rule (R := fun v done => Explained r m₀ n y v.store done.toList) hstep record
    (fun _ _ _ _ _ => trivial) h

/-- **The whole climb,** from `y` to the top level, with others in between. -/
theorem finished_merge (hr : r.Managed) {k : Nat} (hk : y.level = r.geometry.baseLevel + k)
    (h : Explained r m₀ n y w.store w.env.done.toList) :
    let w' := merge r.others (y.climb k) w
    spares (r.addressOf n) w'.env.done.toList = true →
      Finished r m₀ n w'.store w'.env.done.toList := by
  induction k generalizing y w with
  | zero =>
    intro w' hs
    refine (h hs).elim (fun hpending => ?_) id
    obtain ⟨s, -, hmidway⟩ := hpending.sequence
    exact hpending.finish hr ⟨hmidway.sound, hmidway.quiet_of_level_le (by omega)⟩ (.refl _)
  | succ k ih =>
    cases hp : y.parent? with
    | none =>
      have := Node.parent?_eq_none hp
      omega
    | some p =>
      have hlev := Node.level_parent? hp
      rw [Node.climb_succ hp, merge_cons]
      by_cases hc : (w.store.tree.get p).isCoalescing y.side = true
      · -- a finished release announces nothing, so this one is pending
        have hpending : spares (r.addressOf n) w.env.done.toList = true →
            Pending r m₀ n y w.store w.env.done.toList := by
          refine fun hs => (h hs).resolve_right fun hfinished => ?_
          rw [hfinished.rest.quiet p y.side] at hc
          cases hc
        by_cases hocc : (w.store.tree.get p).isOccupied y.side.other = true
        · simp only [hc, hocc, Bool.or_true, if_true]
          intro hs
          obtain ⟨s, -, hmidway⟩ := (hpending hs).sequence
          exact (hpending hs).finish hr ⟨hmidway.sound.merged (r := ⟨p, y.side⟩) hc,
            hmidway.quiet_merged hp hc hocc⟩ (books_mapTree _ w)
        · have hfree := (Bool.not_eq_true _).mp hocc
          have hnext : Explained r m₀ n p (w.merged ⟨p, y.side⟩).store w.env.done.toList := by
            intro hs
            obtain ⟨hkept, s, hcalls, hmidway⟩ := hpending hs
            exact .inl ⟨hkept, s, hcalls, hmidway.merged hp hc hfree⟩
          simp only [hc, hfree, Bool.or_false, if_true]
          split
          · next hempty =>
            have hend := ih (by omega) hnext
            rwa [List.isEmpty_iff.mp hempty] at hend
          · exact ih (by omega) (hnext.react hr _)
      · have hnot := (Bool.not_eq_true _).mp hc
        simp only [hnot, Bool.false_eq_true, if_false]
        intro hs
        refine (h hs).elim (fun hpending => ?_) id
        obtain ⟨s, -, hmidway⟩ := hpending.sequence
        exact hpending.finish hr ⟨hmidway.sound, hmidway.quiet_of_houses hp hnot (by omega)⟩
          (.refl _)

end Explanations

/-! ## 4. One moment -/

/-- **An interrupted release is linearizable.**  After any history, let a live block be freed while
others come in at the merges, none of whom frees its address before it is handed out again.  Then
the calls that came in, with an uninterrupted free somewhere among them, give the same replies one
after the other, and lead to the same metadata; and no announcement is left. -/
theorem interrupted_free_eq_calls {base size : Nat} {config : Config} {r : Region}
    (h : Region.of base size config = .ok r) (cs : List Call) {b : Block}
    (hb : b ∈ (Blocks.calls r cs []).2) (hooks : List (Hook Call)) :
    let address := r.base + b.first * r.geometry.minSize
    let m := (r.calls cs (.blank _)).2
    let result := r.interrupted (.free address) hooks m
    let done := result.2.1.done.toList
    let m' := result.2.2
    spares address done = true →
      (∃ before after, done = before ++ after ∧
        r.calls (before.map Prod.fst ++ .free address :: after.map Prod.fst) m =
          (before.map Prod.snd ++ result.1 :: after.map Prod.snd, m')) ∧
      ∀ (a : Node r.depth) (s : Side), (m'.tree.get a).isCoalescing s = false := by
  intro address m result done m' hspares
  have hr := Region.managed_of h
  have hm : m.Mirrors r.geometry.baseLevel (Blocks.calls r cs []).2 := mirrors_calls hr cs
  obtain ⟨n, rfl⟩ := hm.node b hb
  have hn : m.Records n := (hm.mem n).mp hb
  have hlevel := hm.level hn
  let start : World r.depth (Watch Call Reply) :=
    ⟨(m.withdraw n.firstLeaf).giveUp n r.geometry.baseLevel, .start hooks⟩
  let w := merge r.others (n.climb (n.level - r.geometry.baseLevel)) start
  have hperform : (Call.free (r.addressOf n)).perform r r.others ⟨m, .start hooks⟩ =
      (.freed (.ok ()), w.mapStore (.discharge n)) := by
    have hmap : (⟨m, .start hooks⟩ : World r.depth (Watch Call Reply)).mapStore
        (.withdraw n.firstLeaf) = ⟨m.withdraw n.firstLeaf, .start hooks⟩ := rfl
    rw [free_perform hr r.others (w := ⟨m, .start hooks⟩) hn, hmap,
      Metadata.Holding.release_eq r.others (w := ⟨m.withdraw n.firstLeaf, .start hooks⟩)
        (hm.toSound.withdraw hn)]
    rfl
  have hresult : result = (.freed (.ok ()), w.env, w.store.discharge n) := by
    show r.interrupted (.free (r.addressOf n)) hooks m = _
    unfold Region.interrupted Region.watched
    rw [hperform]
    rfl
  have hstart : Explained r m n n start.store start.env.done.toList :=
    fun _ => .inl ⟨fun p hp => absurd hp List.not_mem_nil, m, rfl, hm.toAtRest.midway hn⟩
  have hfinished := finished_merge hr (k := n.level - r.geometry.baseLevel) (by omega) hstart
  simp only [done, m', hresult] at hspares ⊢
  obtain ⟨hrest, before, after, hdone, hcalls⟩ := hfinished hspares
  exact ⟨⟨before, after, hdone, hcalls⟩, hrest.quiet⟩

/-- The release of a granule that pauses after its first merge.  A block is taken on the other side
of the tree, then the granule itself, which is then freed again before the release goes on. -/
theorem interrupted_free_eq_calls_of_reuse :
    let r : Region := ⟨4096, ⟨1, 3, 0⟩⟩
    let b : Block := ⟨0, 0⟩
    let address := r.base + b.first * r.geometry.minSize
    let hooks : List (Hook Call) := [⟨.coalesced, 1, [.alloc 4, .alloc 1, .free 4096]⟩]
    let m := (r.calls [.alloc 1] (.blank _)).2
    let result := r.interrupted (.free address) hooks m
    let done := result.2.1.done.toList
    Region.of 4096 8 ⟨1, 3⟩ = .ok r ∧ address = 4096 ∧ done.length = 3 ∧
      ∃ before after, done = before ++ after ∧
        r.calls (before.map Prod.fst ++ .free address :: after.map Prod.fst) m =
          (before.map Prod.snd ++ result.1 :: after.map Prod.snd, result.2.2) := by
  have hr : Region.of 4096 8 ⟨1, 3⟩ = .ok ⟨4096, ⟨1, 3, 0⟩⟩ := rfl
  have h := interrupted_free_eq_calls hr [.alloc 1] (b := ⟨0, 0⟩) (by decide +kernel)
    [⟨.coalesced, 1, [.alloc 4, .alloc 1, .free 4096]⟩] (by decide +kernel)
  exact ⟨hr, rfl, by decide +kernel, h.1⟩

end BuddyTree
