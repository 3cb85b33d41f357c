/-
# Sessions

A session brings up an allocator and gives it commands.  A step of a session is one command with
the hooks that run others in between; its outcome is the answer, everything that was reported, and
the answers of the commands that ran in between.
-/
import BuddyTree.Command

namespace BuddyTree

/-! ## 1. Bringing an allocator up -/

/-- Where an allocator's own memory comes from.  No supply grants more than `Supply.limit` bytes
at once. -/
inductive Supply where
  | heap
  /-- A heap whose `nth` request fails. -/
  | failing (nth : Nat)
  /-- A boot arena of `length` bytes at `start`, filled with one byte. -/
  | arena (start length : Nat) (fill : UInt8)
  deriving Repr

/-- The most bytes that are granted for one request. -/
def Supply.limit : Nat := 4194304

/-- Is a request refused without asking the supply? -/
def Supply.refuses (s : Supply) (number : Nat) (r : Request) : Bool :=
  r.bytes > limit ||
    match s with
    | failing nth => number == nth
    | _ => false

/-- What a supply was asked for, each time with the address that was granted, and the arena
afterwards if it is one. -/
structure Account where
  calls : List (Request × Option Nat)
  arena? : Option Arena

/-- What it takes to bring up an allocator. -/
structure Opening where
  base : Nat
  size : Nat
  config : Config
  supply : Supply

namespace Opening

/-- Work with the supply of an opening, a meter in front of it. -/
def metered {α : Type} (o : Opening) (work : (σ : Type) → Source σ → σ → α × σ) : α × Account :=
  match o.supply with
  | .heap | .failing _ =>
    let (answer, meter) :=
      work _ (Source.metered o.supply.refuses .heap) (.start Source.heapStart)
    (answer, ⟨meter.calls, none⟩)
  | .arena start length fill =>
    let (answer, meter) :=
      work _ (Source.metered o.supply.refuses (.arena fill)) (.start (.ofLength start length))
    (answer, ⟨meter.calls, some meter.inner⟩)

/-- Bring up the allocator. -/
def create (o : Opening) : Except InitError (Allocator × List Record) × Account :=
  o.metered fun _ source s => Allocator.create source o.base o.size o.config s

end Opening

/-! ## 2. Steps -/

/-- A command, and what runs in between. -/
structure Step (κ : Type) where
  command : κ
  hooks : List (Hook Command)

/-- What came of a step. -/
structure Outcome (ρ : Type) where
  answer : ρ
  log : Array Record
  /-- The answers of the commands that ran in between, in the order they finished. -/
  between : List Answer

/-- The outcome of something that reported nothing. -/
def Outcome.quiet {ρ : Type} (answer : ρ) : Outcome ρ :=
  ⟨answer, #[], []⟩

/-- The same outcome with another form of its answer. -/
def Outcome.map {ρ τ : Type} (f : ρ → τ) (o : Outcome ρ) : Outcome τ :=
  { o with answer := f o.answer }

/-- The outcome of an operation that a watch listened to. -/
def Outcome.ofWatch {ρ : Type} (answer : ρ) (w : Watch Command Answer) : Outcome ρ :=
  ⟨answer, w.log, (w.done.map Prod.snd).toList⟩

namespace Allocator

/-- Work on an allocator while the commands of hooks wait for their moments. -/
def hooked {ρ : Type} (hooks : List (Hook Command))
    (operation : (r : Region) → Observer r.depth (Watch Command Answer) →
      World r.depth (Watch Command Answer) → ρ × World r.depth (Watch Command Answer)) :
    Allocator → Outcome ρ × Allocator
  | ⟨r, m⟩ =>
    let (answer, watch, m) :=
      r.watched (fun c w => c.perform r (recorder _) w) hooks (operation r) m
    (.ofWatch answer watch, ⟨r, m⟩)

/-- Carry out one step. -/
def step (a : Allocator) (s : Step Command) : Outcome Answer × Allocator :=
  a.hooked s.hooks s.command.perform

end Allocator

/-- The counters and all maps of an allocator at one moment. -/
structure Snapshot where
  used : UInt64
  released : UInt64
  maps : List (List UInt8)

/-- An allocator as it stands. -/
def Snapshot.of (a : Allocator) : Snapshot :=
  ⟨a.usedMemory, a.store.released, a.maps⟩

/-- Carry out steps one after the other, each with what `read` finds in the allocator
afterwards. -/
def Allocator.run {σ : Type} (a : Allocator) (read : Allocator → σ) :
    List (Step Command) → List (Outcome Answer × σ)
  | [] => []
  | s :: rest =>
    let (outcome, a) := a.step s
    (outcome, read a) :: a.run read rest

end BuddyTree
