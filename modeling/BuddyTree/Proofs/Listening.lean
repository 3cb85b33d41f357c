/-
# What listening does not change

An operation sees of its listener only what the listener does to the metadata.  If one listener,
seen through a function of its state, reacts like another one, then whole operations with the two
differ in nothing but that state.

So keeping a log changes no answer and no metadata, and a watch may keep more about its actions
than their replies.

The main facts: `perform_mapEnv` (the two listeners see the same call), `perform_recorder` (a call
that is only recorded is the call that nobody listens to), `Impartial.watched_nil` (so is a call
during which nobody waits for anything), and `watched_relabel` (what a watch keeps about its actions
is only kept).
-/
import BuddyTree.Call

namespace BuddyTree

variable {d : Nat} {ε ε' : Type}

/-! ## 1. Listeners seen through a function -/

/-- The same metadata, with what `g` sees of the listener's state. -/
def World.mapEnv (g : ε → ε') (w : World d ε) : World d ε' := ⟨w.store, g w.env⟩

@[simp] theorem World.store_mapEnv (g : ε → ε') (w : World d ε) :
    (w.mapEnv g).store = w.store := rfl

theorem World.mapStore_mapEnv (g : ε → ε') (f : Metadata d → Metadata d) (w : World d ε) :
    (w.mapEnv g).mapStore f = (w.mapStore f).mapEnv g := rfl

/-- Seen through `g`, the listener reacts like the other one. -/
def Observer.LooksLike (obs : Observer d ε) (g : ε → ε') (obs' : Observer d ε') : Prop :=
  ∀ r w, obs'.react r (w.mapEnv g) = (obs.react r w).mapEnv g

variable {obs : Observer d ε} {g : ε → ε'} {obs' : Observer d ε'}

/-! ## 2. Whole operations -/

theorem merge_mapEnv (h : obs.LooksLike g obs') (path : List (Node.Rung d)) (w : World d ε) :
    merge obs' path (w.mapEnv g) = (merge obs path w).mapEnv g := by
  induction path generalizing w with
  | nil => rfl
  | cons r rest ih =>
    unfold merge
    dsimp only [World.store_mapEnv]
    split
    · rfl
    · split
      · rfl
      · rw [← ih, ← h]
        rfl

theorem release_mapEnv (h : obs.LooksLike g obs') (n : Node d) (bound : Nat) (w : World d ε) :
    release obs' n bound (w.mapEnv g) = (release obs n bound w).map id (World.mapEnv g) := by
  unfold release
  rw [World.store_mapEnv]
  split
  · rfl
  · dsimp only
    rw [World.mapStore_mapEnv, merge_mapEnv h]
    rfl

theorem claim_mapEnv (h : obs.LooksLike g obs') (n : Node d) (top : Nat) (w : World d ε) :
    claim obs' n top (w.mapEnv g) = (claim obs n top w).map id (World.mapEnv g) := by
  unfold claim
  rw [World.store_mapEnv]
  split
  · have hon : ∀ f : Tree d → Option (Node d) × Tree d,
        (w.mapEnv g).onTree f = (w.onTree f).map id (World.mapEnv g) := fun _ => rfl
    dsimp only
    rw [hon]
    split
    · next w' hm =>
      obtain ⟨⟨o, w''⟩, hw⟩ : ∃ x, x = w.onTree fun t =>
        (t.set n .busy).markPath (n.climb (n.level - top)) := ⟨_, rfl⟩
      rw [← hw] at hm ⊢
      obtain ⟨rfl, rfl⟩ := Prod.mk.inj hm
      rfl
    · next owner w' hm =>
      obtain ⟨⟨o, w''⟩, hw⟩ : ∃ x, x = w.onTree fun t =>
        (t.set n .busy).markPath (n.climb (n.level - top)) := ⟨_, rfl⟩
      rw [← hw] at hm ⊢
      obtain ⟨rfl, rfl⟩ := Prod.mk.inj hm
      rw [release_mapEnv h]
      rfl
  · rfl

theorem pass_mapEnv (h : obs.LooksLike g obs') (top stop : Nat) (hstop : stop ≤ 2 ^ (d + 1))
    (i : Nat) (hi : 0 < i) (w : World d ε) :
    pass obs' top stop hstop i hi (w.mapEnv g) =
      (pass obs top stop hstop i hi w).map id (World.mapEnv g) := by
  fun_induction pass obs top stop hstop i hi w with
  | case1 i hi w hn =>
    rw [pass]
    split
    · rfl
    · next n hn' => cases hn.symm.trans hn'
  | case2 i hi w n hn w' hc =>
    rw [pass]
    split
    · next hn' => cases hn.symm.trans hn'
    · next n' hn' =>
      obtain rfl := Option.some.inj (hn.symm.trans hn')
      have hc' := claim_mapEnv h n top w
      rw [hc] at hc'
      split
      · next w'' hw => rw [(Prod.mk.inj (hw.symm.trans hc')).2]; rfl
      · next f w'' hw => cases (Prod.mk.inj (hw.symm.trans hc')).1
  | case3 i hi w n hn f w' hc next hnext ih =>
    rw [pass]
    split
    · next hn' => cases hn.symm.trans hn'
    · next n' hn' =>
      obtain rfl := Option.some.inj (hn.symm.trans hn')
      have hc' := claim_mapEnv h n top w
      rw [hc] at hc'
      split
      · next w'' hw => cases (Prod.mk.inj (hw.symm.trans hc')).1
      · next f' w'' hw =>
        obtain ⟨hf, rfl⟩ := Prod.mk.inj (hw.symm.trans hc')
        obtain rfl := Option.some.inj hf
        rw [← ih, ← h]

theorem search_mapEnv (h : obs.LooksLike g obs') (top order : Nat) (w : World d ε) :
    search obs' top order (w.mapEnv g) = (search obs top order w).map id (World.mapEnv g) := by
  have hpass : ∀ w : World d ε, passLevel obs' top (d - order) (Nat.sub_le _ _) (w.mapEnv g) =
      (passLevel obs top (d - order) (Nat.sub_le _ _) w).map id (World.mapEnv g) :=
    fun w => pass_mapEnv h _ _ _ _ _ w
  suffices hsince : ∀ before w hb, search obs' top order (w.mapEnv g) =
      (searchSince obs top order before w hb).map id (World.mapEnv g) from hsince _ w rfl
  intro before w hb
  fun_induction searchSince obs top order before w hb with
  | case1 w n w' hp =>
    rw [search_eq, hpass, hp]
    rfl
  | case2 w w' hp heq =>
    rw [search_eq, hpass, hp]
    simp only [Prod.map, id, World.store_mapEnv, if_pos heq, h _ _]
  | case3 w w' hp again hne ih =>
    rw [search_eq, hpass, hp]
    simp only [Prod.map, id, World.store_mapEnv, if_neg hne, h _ _]
    exact ih

section Calls

variable {r : Region} {obs : Observer r.depth ε} {obs' : Observer r.depth ε'}

theorem alloc_mapEnv (h : obs.LooksLike g obs') (size : Nat) (w : World r.depth ε) :
    r.alloc obs' size (w.mapEnv g) = (r.alloc obs size w).map id (World.mapEnv g) := by
  unfold Region.alloc
  split
  · rfl
  · next order _ =>
    rw [search_mapEnv h]
    rcases search obs r.geometry.baseLevel order w with ⟨_ | n, w'⟩
    · rfl
    · simp only [Prod.map, id, World.mapStore_mapEnv, h _ _]

theorem allocLayout_mapEnv (h : obs.LooksLike g obs') (layout : Layout) (w : World r.depth ε) :
    r.allocLayout obs' layout (w.mapEnv g) =
      (r.allocLayout obs layout w).map id (World.mapEnv g) := by
  unfold Region.allocLayout
  split
  · rfl
  · exact alloc_mapEnv h _ w

theorem free_mapEnv (h : obs.LooksLike g obs') (address : Nat) (w : World r.depth ε) :
    r.free obs' address (w.mapEnv g) = (r.free obs address w).map id (World.mapEnv g) := by
  unfold Region.free
  split
  · rfl
  · split
    · next hin =>
      split
      · exact congrArg (Prod.mk _) (h _ _)
      · dsimp only [World.store_mapEnv]
        split
        · exact congrArg (Prod.mk _) (h _ _)
        · next n _ =>
          rw [World.mapStore_mapEnv, release_mapEnv h]
          let leaf := r.leafAt address hin.2
          rcases release obs n r.geometry.baseLevel (w.mapStore (.withdraw leaf)) with ⟨_ | _, w'⟩
          · exact congrArg (Prod.mk _) (h _ _)
          · rfl
    · rfl

/-- **The two see the same call.** -/
theorem perform_mapEnv (h : obs.LooksLike g obs') (c : Call) (w : World r.depth ε) :
    c.perform r obs' (w.mapEnv g) = (c.perform r obs w).map id (World.mapEnv g) := by
  cases c with
  | alloc size => simp only [Call.perform, alloc_mapEnv h, Prod.map, id]
  | allocLayout layout => simp only [Call.perform, allocLayout_mapEnv h, Prod.map, id]
  | free address => simp only [Call.perform, free_mapEnv h, Prod.map, id]

end Calls

/-! ## 3. Logs and watches -/

/-- Who does not look at the log sees nothing. -/
theorem recorder_looksLike_silent (d : Nat) :
    (recorder d).LooksLike (fun _ => ()) (silent d) :=
  fun _ _ => rfl

/-- **A log changes nothing.**  A call that is recorded is the call that nobody listens to. -/
theorem perform_recorder (r : Region) (c : Call) (w : World r.depth (Array Record)) :
    r.call c w.store = ((c.perform r (recorder _) w).1, (c.perform r (recorder _) w).2.store) := by
  have h := perform_mapEnv (recorder_looksLike_silent r.depth) c w
  have hw : w.mapEnv (fun _ => ()) = ⟨w.store, ()⟩ := rfl
  rw [hw] at h
  simp only [Region.call, Region.alone, h]
  rfl

/-- A watch that waits for nothing only keeps the log. -/
theorem recorder_looksLike_watching {κ ρ : Type} (perform : Watch.Perform d κ ρ) :
    (recorder d).LooksLike (fun log => ⟨log, [], #[]⟩) (watching d perform) := by
  rintro record ⟨store, log⟩
  show Watch.react perform record ⟨store, log, [], #[]⟩ = ⟨store, log.push record, [], #[]⟩
  unfold Watch.react
  dsimp only
  cases record.event? <;> rfl

/-- The operation does the same whoever listens. -/
def Region.Impartial {α : Type} (r : Region)
    (operation : (ε : Type) → Observer r.depth ε → World r.depth ε → α × World r.depth ε) : Prop :=
  ∀ ⦃ε ε' : Type⦄ ⦃obs : Observer r.depth ε⦄ ⦃obs' : Observer r.depth ε'⦄ ⦃g : ε → ε'⦄,
    obs.LooksLike g obs' →
      ∀ w, operation ε' obs' (w.mapEnv g) = (operation ε obs w).map id (World.mapEnv g)

/-- **If nobody waits for anything,** such an operation does what it does alone. -/
theorem Region.Impartial.watched_nil {α κ ρ : Type} {r : Region}
    {operation : (ε : Type) → Observer r.depth ε → World r.depth ε → α × World r.depth ε}
    (h : r.Impartial operation) (perform : Watch.Perform r.depth κ ρ) (m : Metadata r.depth) :
    let (answer, _, m') := r.watched perform [] (operation _) m
    (answer, m') = r.alone (operation _) m := by
  let recorded : World r.depth (Array Record) := ⟨m, #[]⟩
  have hwatch := h (recorder_looksLike_watching perform) recorded
  have halone := h (recorder_looksLike_silent r.depth) recorded
  have hstart : (⟨m, .start []⟩ : World r.depth (Watch κ ρ)) =
      recorded.mapEnv fun log => ⟨log, [], #[]⟩ := rfl
  have hsilent : (⟨m, ()⟩ : World r.depth Unit) = recorded.mapEnv fun _ => () := rfl
  simp only [Region.watched, Region.alone, hstart, hsilent, hwatch, halone]
  rfl

namespace Watch

variable {κ ρ σ : Type}

/-- The watch with something else kept about each action that was run. -/
def relabel (f : σ → ρ) (watch : Watch κ σ) : Watch κ ρ :=
  ⟨watch.log, watch.hooks, watch.done.map fun p => (p.1, f p.2)⟩

/-- Actions that differ only in what they give about themselves do the same. -/
def Perform.Relabels (f : σ → ρ) (perform : Perform d κ σ) (perform' : Perform d κ ρ) : Prop :=
  ∀ c w, perform' c w = (perform c w).map f id

variable {f : σ → ρ} {perform : Perform d κ σ} {perform' : Perform d κ ρ}

theorem performAll_relabel (h : Perform.Relabels f perform perform') (actions : List κ)
    (w : World d (Array Record)) (done : Array (κ × σ)) :
    performAll perform' actions w (done.map fun p => (p.1, f p.2)) =
      (performAll perform actions w done).map id (Array.map fun p => (p.1, f p.2)) := by
  induction actions generalizing w done with
  | nil => rfl
  | cons a rest ih =>
    have ih' := ih (perform a w).2 (done.push (a, (perform a w).1))
    rw [Array.map_push] at ih'
    unfold performAll
    simp only [h a w, Prod.map, id]
    exact ih'

theorem watching_looksLike (h : Perform.Relabels f perform perform') :
    (watching d perform).LooksLike (relabel f) (watching d perform') := by
  rintro r ⟨store, log, hooks, done⟩
  show react perform' r ⟨store, log, hooks, done.map fun p => (p.1, f p.2)⟩ =
    (react perform r ⟨store, log, hooks, done⟩).mapEnv (relabel f)
  unfold react
  dsimp only
  split
  · rfl
  · next e _ =>
    cases hooks.filter (Hook.isDue e) with
    | nil => rfl
    | cons due rest =>
      dsimp only
      rw [performAll_relabel h]
      rfl

end Watch

/-- **What a watch keeps about its actions is only kept.** -/
theorem watched_relabel {κ ρ σ : Type} {r : Region} {f : σ → ρ}
    {perform : Watch.Perform r.depth κ σ} {perform' : Watch.Perform r.depth κ ρ}
    (h : Watch.Perform.Relabels f perform perform') (c : Call) (hooks : List (Hook κ))
    (m : Metadata r.depth) :
    r.watched perform' hooks (c.perform r) m =
      let (reply, watch, m') := r.watched perform hooks (c.perform r) m
      (reply, watch.relabel f, m') := by
  have hstart : (⟨m, .start hooks⟩ : World r.depth (Watch κ ρ)) =
      World.mapEnv (Watch.relabel f) ⟨m, .start hooks⟩ := by
    simp [World.mapEnv, Watch.relabel, Watch.start]
  unfold Region.watched
  rw [hstart, perform_mapEnv (Watch.watching_looksLike h)]
  rfl

end BuddyTree
