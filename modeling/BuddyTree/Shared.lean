/-
# The allocator of a process

A process has one allocator that everything in it shares.  It is there before any memory is known,
is brought up once, and cannot be brought up again; an attempt that failed can be repeated.  Until
then there is no memory to be had from it, and nothing can be given back.

It stands in a cell that is filled once, and which of the attempts filled it is known from whether
that attempt had to do the work.

Its calls have no way to report a failure but address 0 and the log.
-/
import BuddyTree.Once
import BuddyTree.Session

namespace BuddyTree

/-! ## 1. The calls -/

/-- The one allocator of a process, once it was brought up. -/
structure Shared (O : Once) where
  cell : O.Cell Allocator

/-- An attempt to bring up an allocator: whether the work was done at all, what was reported, and
the supply of memory. -/
structure Attempt (σ : Type) where
  fresh : Bool
  log : List Record
  supply : σ

/-- The work of an attempt. -/
def Attempt.work {σ : Type} (source : Source σ) (base size : Nat) (config : Config)
    (t : Attempt σ) : Except InitError Allocator × Attempt σ :=
  match Allocator.create source base size config t.supply with
  | (.error e, supply) => (.error e, ⟨true, t.log, supply⟩)
  | (.ok (a, log), supply) => (.ok a, ⟨true, t.log ++ log, supply⟩)

/-- Take a block back.  There is no answer; a failure is reported. -/
def Region.dealloc {ε : Type} (r : Region) (obs : Observer r.depth ε) (address : Nat)
    (w : World r.depth ε) : Unit × World r.depth ε :=
  match r.free obs address w with
  | (.ok (), w) => ((), w)
  | (.error e, w) => ((), obs.react (.rejectedRelease e) w)

namespace Shared

variable {O : Once}

/-- Nothing was brought up yet. -/
def new (O : Once) : Shared O := ⟨O.new⟩

/-- Sessions begin so. -/
def uninitialized : Shared .option := new .option

/-- The allocator, if it was brought up. -/
def instance? (s : Shared O) : Option Allocator := O.get? s.cell

/-- The same process after work on its allocator. -/
def put (s : Shared O) (a : Allocator) : Shared O := ⟨O.modify (fun _ => a) s.cell⟩

/-- Bring the allocator up, with memory from `source`: the allocator, and what it reports.  Once
there is one nothing is asked for any more. -/
def init {σ : Type} (s : Shared O) (source : Source σ) (base size : Nat) (config : Config)
    (supply : σ) : (Except InitError Allocator × List Record × Shared O) × σ :=
  let ((result, cell), t) :=
    O.tryCallOnce (Attempt.work source base size config) s.cell ⟨false, [], supply⟩
  let result := match result with
    | .error e => .error e
    | .ok a => if t.fresh then .ok a else .error .alreadyInitialized
  ((result, t.log, ⟨cell⟩), t.supply)

/-- A block for the layout, or address 0. -/
def alloc (s : Shared O) (layout : Layout) (hooks : List (Hook Command)) :
    Outcome Nat × Shared O :=
  match s.instance? with
  | none => (.quiet 0, s)
  | some a =>
    let (outcome, a) := a.hooked hooks fun r obs w => r.allocLayout obs layout w
    (outcome.map fun result => result.toOption.getD 0, s.put a)

/-- Take a block back, if there is an allocator. -/
def dealloc (s : Shared O) (address : Nat) (hooks : List (Hook Command)) :
    Outcome Unit × Shared O :=
  match s.instance? with
  | none => (⟨(), #[.earlyRelease address], []⟩, s)
  | some a =>
    let (outcome, a) := a.hooked hooks fun r obs w => r.dealloc obs address w
    (outcome, s.put a)

end Shared

/-! ## 2. Sessions that begin before the allocator -/

/-- What to do to a process's allocator. -/
inductive SharedCommand where
  | init (opening : Opening)
  | get
  | alloc (size align : Nat)
  | dealloc (address size align : Nat)
  /-- A command to the allocator itself. -/
  | direct (command : Command)

/-- What came of it. -/
inductive SharedAnswer where
  /-- The total memory of the allocator that was brought up. -/
  | init (result : Except InitError Nat) (account : Account)
  /-- The base, the bytes in live blocks and the releases so far. -/
  | got (summary : Option (Nat × UInt64 × UInt64))
  /-- The address of the block, 0 if there is none. -/
  | block (address : Nat)
  | done
  | noLayout
  | notInitialized
  | direct (answer : Answer)

namespace Shared

variable {O : Once}

/-- Carry out one step. -/
def step (s : Shared O) (t : Step SharedCommand) : Outcome SharedAnswer × Shared O :=
  match t.command with
  | .init o =>
    let ((result, log, s), account) :=
      o.metered fun _ source supply => s.init source o.base o.size o.config supply
    (⟨.init (result.map fun a => a.region.geometry.totalMemory) account, log.toArray, []⟩, s)
  | .get =>
    (.quiet (.got (s.instance?.map fun a => (a.region.base, a.usedMemory, a.store.released))), s)
  | .alloc size align =>
    match Layout.of? size align with
    | none => (.quiet .noLayout, s)
    | some layout =>
      let (outcome, s) := s.alloc layout t.hooks
      (outcome.map .block, s)
  | .dealloc address size align =>
    match Layout.of? size align with
    | none => (.quiet .noLayout, s)
    | some _ =>
      let (outcome, s) := s.dealloc address t.hooks
      (outcome.map fun () => .done, s)
  | .direct command =>
    match s.instance? with
    | none => (.quiet .notInitialized, s)
    | some a =>
      let (outcome, a) := a.step ⟨command, t.hooks⟩
      (outcome.map .direct, s.put a)

/-- Carry out steps one after the other.  A step that began with an allocator comes with what
`read` finds in it afterwards. -/
def run {σ : Type} (s : Shared O) (read : Allocator → σ) :
    List (Step SharedCommand) → List (Outcome SharedAnswer × Option σ)
  | [] => []
  | t :: rest =>
    let started := s.instance?.isSome
    let (outcome, s) := s.step t
    (outcome, if started then s.instance?.map read else none) :: s.run read rest

end Shared
end BuddyTree
