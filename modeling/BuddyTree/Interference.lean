/-
# Work in the presence of others

Operations on one allocator may come in between each other.  An operation lets others in only
when it reports, and reads everything again afterwards; so the others can be described as the
reaction to a report, and an operation as a function of that reaction.

A `World` is the metadata together with the state of whoever listens, and an `Observer` says how
the listener reacts to each record.  Three observers are given: the silent one ignores all
records, the recorder keeps them, and the watch keeps them and runs other operations at chosen
moments.

An observer that could interfere for ever could keep an allocation scanning for ever.  So each has
a finite store of interference, `pending`, and its law says that a reaction uses some of it up or
leaves the metadata as it was.  `Settles` is what that law gives for a whole stretch of work, and
is what makes allocation end.
-/
import BuddyTree.Metadata
import BuddyTree.Record

namespace BuddyTree

/-! ## 1. Worlds and observers -/

/-- The metadata as it stands, and the state of whoever listens. -/
structure World (d : Nat) (ε : Type) where
  store : Metadata d
  env : ε

namespace World

variable {d : Nat} {ε α : Type}

/-- Change the metadata; the listener does not see it. -/
@[inline] def mapStore (f : Metadata d → Metadata d) (w : World d ε) : World d ε :=
  let ⟨store, env⟩ := w
  ⟨f store, env⟩

/-- Work on the tree alone, for a result. -/
@[inline] def onTree (f : Tree d → α × Tree d) (w : World d ε) : α × World d ε :=
  let ⟨⟨tree, index, live, released⟩, env⟩ := w
  let (a, tree) := f tree
  (a, ⟨⟨tree, index, live, released⟩, env⟩)

@[simp] theorem store_mapStore (f : Metadata d → Metadata d) (w : World d ε) :
    (w.mapStore f).store = f w.store := rfl

@[simp] theorem env_mapStore (f : Metadata d → Metadata d) (w : World d ε) :
    (w.mapStore f).env = w.env := rfl

@[simp] theorem onTree_fst (f : Tree d → α × Tree d) (w : World d ε) :
    (w.onTree f).1 = (f w.store.tree).1 := rfl

@[simp] theorem onTree_snd (f : Tree d → α × Tree d) (w : World d ε) :
    (w.onTree f).2 = w.mapStore (.mapTree fun t => (f t).2) := rfl

end World

/-- How a listener in state `ε` reacts to the reports of an operation. -/
structure Observer (d : Nat) (ε : Type) where
  react : Record → World d ε → World d ε
  /-- How often the listener may still interfere. -/
  pending : ε → Nat
  /-- A reaction is paid for out of `pending`, or it leaves the metadata alone. -/
  paid : ∀ r w, pending (react r w).env < pending w.env ∨
    (pending (react r w).env = pending w.env ∧ (react r w).store = w.store)

/-- From `w` to `w'` some interference was used up, or no release was counted. -/
def Observer.Settles {d : Nat} {ε : Type} (obs : Observer d ε) (w w' : World d ε) : Prop :=
  obs.pending w'.env < obs.pending w.env ∨
    (obs.pending w'.env = obs.pending w.env ∧ w'.store.released = w.store.released)

namespace Observer

variable {d : Nat} {ε : Type} {obs : Observer d ε}

theorem Settles.refl (w : World d ε) : obs.Settles w w :=
  .inr ⟨rfl, rfl⟩

theorem Settles.trans {u v w : World d ε} (h1 : obs.Settles u v) (h2 : obs.Settles v w) :
    obs.Settles u w := by
  rcases h1 with h1 | ⟨p1, r1⟩ <;> rcases h2 with h2 | ⟨p2, r2⟩
  · exact .inl (by omega)
  · exact .inl (by omega)
  · exact .inl (by omega)
  · exact .inr ⟨by omega, r2.trans r1⟩

/-- A change of the tree counts no release. -/
theorem settles_mapTree (f : Tree d → Tree d) (w : World d ε) :
    obs.Settles w (w.mapStore (.mapTree f)) :=
  .inr ⟨rfl, rfl⟩

/-- Work on the tree counts no release. -/
theorem settles_onTree {α : Type} (f : Tree d → α × Tree d) (w : World d ε) :
    obs.Settles w (w.onTree f).2 :=
  .inr ⟨rfl, rfl⟩

theorem settles_react (r : Record) (w : World d ε) : obs.Settles w (obs.react r w) :=
  (obs.paid r w).imp id fun h => ⟨h.1, by rw [h.2]⟩

theorem Settles.pending_le {w w' : World d ε} (h : obs.Settles w w') :
    obs.pending w'.env ≤ obs.pending w.env := by
  rcases h with h | h <;> omega

/-- **Only interference releases blocks.**  If a release was counted on the way, some
interference was used up. -/
theorem Settles.pending_lt {w w' : World d ε} (h : obs.Settles w w')
    (hne : w'.store.released ≠ w.store.released) : obs.pending w'.env < obs.pending w.env := by
  rcases h with h | h
  · exact h
  · exact absurd h.2 hne

end Observer

/-! ## 2. Listening only -/

/-- Ignores every report. -/
def silent (d : Nat) : Observer d Unit where
  react _ w := w
  pending _ := 0
  paid _ _ := .inr ⟨rfl, rfl⟩

/-- Keeps every report, oldest first. -/
def recorder (d : Nat) : Observer d (Array Record) where
  react r w :=
    let ⟨store, log⟩ := w
    ⟨store, log.push r⟩
  pending _ := 0
  paid _ _ := .inr ⟨rfl, rfl⟩

/-! ## 3. Acting at chosen moments -/

/-- Actions to run at the `wait`-th record of an event from now on. -/
structure Hook (κ : Type) where
  event : Event
  wait : Nat
  actions : List κ

namespace Hook

variable {κ : Type}

/-- Is this record the one waited for? -/
def isDue (e : Event) (h : Hook κ) : Bool :=
  decide (h.event = e) && h.wait == 1

/-- One record less to wait for. -/
def tick (e : Event) (h : Hook κ) : Hook κ :=
  if h.event = e then { h with wait := h.wait - 1 } else h

end Hook

/-- The state of a watch over actions `κ` with answers `ρ`. -/
structure Watch (κ ρ : Type) where
  /-- All records, those of the actions included. -/
  log : Array Record
  /-- What is still to come. -/
  hooks : List (Hook κ)
  /-- The actions that were run, each with its answer. -/
  done : Array (κ × ρ)

namespace Watch

variable {d : Nat} {κ ρ : Type}

/-- A watch that has seen nothing yet. -/
def start (hooks : List (Hook κ)) : Watch κ ρ :=
  ⟨#[], hooks, #[]⟩

/-- How an action is carried out; nothing interferes with it. -/
abbrev Perform (d : Nat) (κ ρ : Type) :=
  κ → World d (Array Record) → ρ × World d (Array Record)

/-- Carry out actions one after the other. -/
def performAll (perform : Perform d κ ρ) :
    List κ → World d (Array Record) → Array (κ × ρ) → World d (Array Record) × Array (κ × ρ)
  | [], w, done => (w, done)
  | a :: rest, w, done =>
    let (answer, w') := perform a w
    performAll perform rest w' (done.push (a, answer))

/-- Keep the record; if it is one that hooks wait for, carry out their actions in order. -/
def react (perform : Perform d κ ρ) (r : Record) (w : World d (Watch κ ρ)) :
    World d (Watch κ ρ) :=
  let ⟨store, ⟨log, hooks, done⟩⟩ := w
  let log := log.push r
  match r.event? with
  | none => ⟨store, ⟨log, hooks, done⟩⟩
  | some e =>
    match hooks.filter (Hook.isDue e) with
    | [] => ⟨store, ⟨log, hooks.map (Hook.tick e), done⟩⟩
    | due =>
      let later := hooks.filter fun h => !h.isDue e
      let (⟨store, log⟩, done) := performAll perform (due.flatMap Hook.actions) ⟨store, log⟩ done
      ⟨store, ⟨log, later.map (Hook.tick e), done⟩⟩

theorem length_filter_not_isDue_lt {e : Event} {hooks : List (Hook κ)}
    (h : hooks.filter (Hook.isDue e) ≠ []) :
    (hooks.filter fun k => !k.isDue e).length < hooks.length := by
  obtain ⟨k, hk⟩ := List.exists_mem_of_ne_nil _ h
  obtain ⟨hmem, hdue⟩ := List.mem_filter.mp hk
  exact List.length_filter_lt_length_iff_exists.mpr ⟨k, hmem, by simp [hdue]⟩

/-- A reaction uses up a hook, or only ticks. -/
theorem react_paid (perform : Perform d κ ρ) (r : Record) (w : World d (Watch κ ρ)) :
    (react perform r w).env.hooks.length < w.env.hooks.length ∨
      ((react perform r w).env.hooks.length = w.env.hooks.length ∧
        (react perform r w).store = w.store) := by
  unfold react
  dsimp only
  split
  · exact .inr ⟨rfl, rfl⟩
  · next e _ =>
    split
    · exact .inr ⟨List.length_map _, rfl⟩
    · next due hdue =>
      exact .inl (by rw [List.length_map]; exact length_filter_not_isDue_lt hdue)

end Watch

/-- Keeps every report and carries out actions at the moments its hooks choose. -/
def watching {κ ρ : Type} (d : Nat) (perform : Watch.Perform d κ ρ) :
    Observer d (Watch κ ρ) where
  react := Watch.react perform
  pending w := w.hooks.length
  paid := Watch.react_paid perform

end BuddyTree
