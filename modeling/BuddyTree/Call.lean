/-
# Calls

The three calls of an allocator as values, so that histories of calls can be written down: calls
one after the other (`Region.calls`), and a call with others in between (`Region.interrupted`).

The main fact is `calls_append`: a history is made in parts.
-/
import BuddyTree.Region

namespace BuddyTree

/-! ## 1. Calls and replies -/

/-- One call of an allocator. -/
inductive Call where
  | alloc (size : Nat)
  | allocLayout (layout : Layout)
  | free (address : Nat)

/-- What a call returns. -/
inductive Reply where
  | allocated (result : Except AllocError Nat)
  | freed (result : Except FreeError Unit)

/-- Make a call while an observer listens. -/
def Call.perform {ε : Type} (c : Call) (r : Region) (obs : Observer r.depth ε)
    (w : World r.depth ε) : Reply × World r.depth ε :=
  match c with
  | alloc size =>
    let (result, w) := r.alloc obs size w
    (.allocated result, w)
  | allocLayout layout =>
    let (result, w) := r.allocLayout obs layout w
    (.allocated result, w)
  | free address =>
    let (result, w) := r.free obs address w
    (.freed result, w)

namespace Region

variable {κ ρ α : Type}

/-! ## 2. One caller -/

/-- Work that nothing interferes with and nobody listens to. -/
def alone (r : Region)
    (operation : Observer r.depth Unit → World r.depth Unit → α × World r.depth Unit)
    (m : Metadata r.depth) : α × Metadata r.depth :=
  let (answer, ⟨m, _⟩) := operation (silent _) ⟨m, ()⟩
  (answer, m)

/-- Make one call. -/
def call (r : Region) (c : Call) (m : Metadata r.depth) : Reply × Metadata r.depth :=
  r.alone (c.perform r) m

/-- Make calls one after the other. -/
def calls (r : Region) : List Call → Metadata r.depth → List Reply × Metadata r.depth
  | [], m => ([], m)
  | c :: rest, m =>
    let (reply, m) := r.call c m
    let (replies, m) := r.calls rest m
    (reply :: replies, m)

/-- **A history is made in parts.** -/
theorem calls_append (r : Region) (cs ds : List Call) (m : Metadata r.depth) :
    r.calls (cs ++ ds) m =
      ((r.calls cs m).1 ++ (r.calls ds (r.calls cs m).2).1, (r.calls ds (r.calls cs m).2).2) := by
  induction cs generalizing m with
  | nil => rfl
  | cons c rest ih => simp only [List.cons_append, calls, ih]

/-! ## 3. Several callers -/

/-- Work while actions wait for their moments: the answer, what the watch saw and did, and the
metadata afterwards. -/
def watched (r : Region) (perform : Watch.Perform r.depth κ ρ) (hooks : List (Hook κ))
    (operation : Observer r.depth (Watch κ ρ) → World r.depth (Watch κ ρ) →
      α × World r.depth (Watch κ ρ))
    (m : Metadata r.depth) : α × Watch κ ρ × Metadata r.depth :=
  let (answer, ⟨m, watch⟩) := operation (watching _ perform) ⟨m, .start hooks⟩
  (answer, watch, m)

/-- Make one call, with others in between at chosen moments. -/
def interrupted (r : Region) (c : Call) (hooks : List (Hook Call)) (m : Metadata r.depth) :
    Reply × Watch Call Reply × Metadata r.depth :=
  r.watched (fun other w => other.perform r (recorder _) w) hooks (c.perform r) m

end Region
end BuddyTree
