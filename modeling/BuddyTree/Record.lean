/-
# The log

What an allocator reports while it works, as values; the wording is one function, `Record.message`.
Five of the records mark moments at which an operation lets others in (`Event`): the operation
has written its state and reads it again afterwards.
-/
import BuddyTree.Failure
import BuddyTree.Geometry

namespace BuddyTree

/-- How urgent a record is. -/
inductive Severity where
  | error
  | warn
  | info
  | debug
  | trace
  deriving DecidableEq, Repr

/-- The written name of a severity. -/
def Severity.name : Severity → String
  | error => "ERROR"
  | warn => "WARN"
  | info => "INFO"
  | debug => "DEBUG"
  | trace => "TRACE"

/-- The moments at which other operations may come in between. -/
inductive Event where
  /-- A claim failed and was rolled back; the scan has not gone on yet. -/
  | conflict
  /-- A block is entered; its address has not been returned yet. -/
  | claimed
  /-- A node was merged; its parent has not been looked at yet. -/
  | coalesced
  /-- A scan found nothing and no release was seen; the failure has not been returned yet. -/
  | exhausted
  /-- A scan found nothing but a release was seen; the next scan has not begun yet. -/
  | rescan
  deriving DecidableEq, Repr

/-- One report. -/
inductive Record where
  | unmanaged (bytes last : Nat)
  | ready (base last : Nat) (geometry : Geometry)
  | conflict (node failedAt next : Nat)
  | claimed (node order leaf : Nat)
  | coalesced (node : Nat)
  | exhausted (order : Nat)
  | rescanning (order : Nat)
  | unalignedFree (address : Nat)
  | unknownFree (address : Nat)
  | alreadyFree (node address : Nat)
  | earlyRelease (address : Nat)
  | rejectedRelease (cause : FreeError)
  deriving DecidableEq, Repr

namespace Record

/-- The severity of each kind of report. -/
def severity : Record → Severity
  | unmanaged .. => .warn
  | ready .. => .info
  | conflict .. => .trace
  | claimed .. => .trace
  | coalesced .. => .debug
  | exhausted .. => .debug
  | rescanning .. => .debug
  | unalignedFree .. => .warn
  | unknownFree .. => .warn
  | alreadyFree .. => .warn
  | earlyRelease .. => .error
  | rejectedRelease .. => .error

/-- The wording of a report. -/
def message : Record → String
  | unmanaged bytes last =>
    s!"{Hex.ofAddress bytes} bytes past {Hex.ofAddress last} are not managed"
  | ready base last g =>
    s!"{Hex.ofAddress base}..={Hex.ofAddress last}, depth {g.depth}, " ++
      s!"base level {g.baseLevel}, blocks {g.minSize}..={g.maxSize} bytes, " ++
      s!"metadata {g.treeBytes + g.indexBytes} bytes"
  | conflict node failedAt next =>
    s!"claim of node {node} failed at {failedAt}, resuming at {next}"
  | claimed node order leaf => s!"claimed node {node} (order {order}, leaf {leaf})"
  | coalesced node => s!"node {node} coalesced"
  | exhausted order => s!"order {order} exhausted"
  | rescanning order => s!"blocks released during scan of order {order}, rescanning"
  | unalignedFree address => s!"free of unaligned address {Hex.ofAddress address}"
  | unknownFree address => s!"free of {Hex.ofAddress address} which is not allocated"
  | alreadyFree node address =>
    s!"node {node} for {Hex.ofAddress address} was already free"
  | earlyRelease address => s!"dealloc of {Hex.ofAddress address} before init"
  | rejectedRelease cause => s!"dealloc: {cause.message}"

/-- The name under which an allocator reports. -/
def sender : String := "nbbs"

/-- The report as a line of the log. -/
def line (r : Record) : String :=
  s!"{r.severity.name} {sender}: {r.message}"

/-- The moment that a report marks, if it marks one. -/
def event? : Record → Option Event
  | conflict .. => some .conflict
  | claimed .. => some .claimed
  | coalesced .. => some .coalesced
  | exhausted .. => some .exhausted
  | rescanning .. => some .rescan
  | _ => none

end Record
end BuddyTree
