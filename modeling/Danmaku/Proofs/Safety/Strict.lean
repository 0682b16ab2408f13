import Danmaku.Machine.Run

/-!
# A strict machine

The machine computes with numbers of any size, and where it reads or writes an array it says what
happens outside of it. The strict machine does neither. It has the numbers of a 64-bit host, and it
*breaks* where a sum is too large or a difference is below zero, where an index or a range of
indices is outside of its array, where there are more arguments than slots for them, and where a
firing function is handed another number of arguments than it takes (`Strict.Abort.broken`). Apart
from that it does what the machine does, in the same order. It does not search a type table but
reads it at places, as a host does that has them in maps.
-/

namespace Danmaku.Strict

/-- Why a computation of the strict machine has no result. -/
inductive Abort
  /-- It faults, as the machine may. -/
  | fault (fault : Fault)
  /-- It breaks. -/
  | broken
  deriving DecidableEq

/-- A computation of the strict machine. -/
abbrev StrictM := EStateM Abort Config

/-- A computation that has no indices and no sums of its own. -/
def plain {α : Type} (m : Exec α) : StrictM α := fun c =>
  match m c with
  | .ok a c => .ok a c
  | .error f c => .error (.fault f) c

/-- Something that is looked up or computed without changing anything. -/
def ofExcept {α : Type} (f : Config → Except Abort α) : StrictM α := fun c =>
  match f c with
  | .ok a => .ok a c
  | .error abort => .error abort c

/-! ## Numbers and arrays -/

/-- Go on only if a condition holds. -/
def require (P : Prop) [Decidable P] : Except Abort Unit :=
  if P then .ok () else .error .broken

/-- A sum of unsigned 64-bit numbers. -/
def add (m n : Nat) : Except Abort Nat := do
  require (m + n < 0x10000000000000000)
  return m + n

/-- A difference of unsigned numbers. -/
def sub (m n : Nat) : Except Abort Nat := do
  require (n ≤ m)
  return m - n

/-- A sum of signed 64-bit numbers. -/
def addSigned (m n : Int) : Except Abort Int := do
  require (-0x8000000000000000 ≤ m + n ∧ m + n < 0x8000000000000000)
  return m + n

/-- The next number of unsigned 32 bits. -/
def next (n : Nat) : Except Abort Nat := do
  require (n + 1 < 0x100000000)
  return n + 1

/-- What stands at a place, where something has to be. -/
def entry {α : Type} : Option α → Except Abort α
  | some x => .ok x
  | none => .error .broken

/-- An entry of an array. -/
def read {α : Type} (xs : Array α) (i : Nat) : Except Abort α := entry xs[i]?

/-! ## Instructions -/

/-- An operand of the opcode at an address. -/
def operand (words : Array Word) (address n : Nat) : Except Abort Word := do
  read words (← add (← add address 1) n)

/-- An operand as an index. -/
def index (words : Array Word) (address n : Nat) : Except Abort Nat := do
  let word ← operand words address n
  match word.toIndex? with
  | some i => return i
  | none => .error (.fault (.invalidOperand word (← add (← add address 1) n)))

/-- Give an opcode at an address its operands. -/
def readOperands (words : Array Word) (address : Nat) : Opcode → Except Abort Instr
  | .push => return .push (← operand words address 0)
  | .pop => return .pop
  | .negate => return .negate
  | .not => return .not
  | .binary op => return .binary op
  | .jump => return .jump (← index words address 0)
  | .branchIfZero => return .branchIfZero (← index words address 0)
  | .jumpBy => return .jumpBy (← operand words address 0).toOffset
  | .branchIfZeroBy => return .branchIfZeroBy (← operand words address 0).toOffset
  | .getVariable => return .getVariable (← index words address 0)
  | .setVariable => return .setVariable (← index words address 0)
  | .getProperty => return .getProperty (← index words address 0)
  | .setProperty => return .setProperty (← index words address 0)
  | .call => return .call (← index words address 0)
  | .callDelegate => return .callDelegate (← index words address 0)
  | .fire => return .fire (← index words address 0)
  | .fireWith => return .fireWith (← index words address 0) (← index words address 1)
  | .wait => return .wait
  | .ret => return .ret

/-- The instruction at an address, and the address after it. -/
def decode (words : Array Word) (address : Nat) : Except Abort (Instr × Nat) :=
  match words[address]? with
  | none => .error (.fault (.truncatedInstruction address))
  | some word =>
    match Opcode.ofWord? word with
    | none => .error (.fault (.invalidOpcode word address))
    | some opcode => do
      let next ← add (← add address 1) opcode.operandCount
      if words.size < next then .error (.fault (.truncatedInstruction address))
      else return (← readOperands words address opcode, next)

/-! ## Threads -/

/-- The place of a variable in the array. -/
def slot (t : Thread) (index : Nat) : Except Abort Nat :=
  let (base, extent) := t.window
  if index < extent then add base index else .error (.fault (.variableOutOfRange index))

/-- The value of a variable. -/
def getVariable (t : Thread) (index : Nat) : Except Abort Word := do
  read t.slots (← slot t index)

/-- Change a variable. -/
def setVariable (t : Thread) (index : Nat) (value : Word) : Except Abort Thread := do
  let slot ← slot t index
  let rootExtent ←
    if t.frames.isEmpty then (max t.rootExtent ·) <$> add index 1 else pure t.rootExtent
  require (slot < t.slots.size)
  return { t with slots := t.slots.setIfInBounds slot value, rootExtent }

/-- Claim the first slots for the root. -/
def reserve (t : Thread) (count : Nat) : Except Abort Thread :=
  if t.slots.size < count then do
    let last ← sub count 1
    .error (.fault (.variableOutOfRange last))
  else .ok { t with rootExtent := max t.rootExtent count }

/-! ## Properties -/

/-- The property that a global number means for an entity. The type is read at the place that its
host type has among the types, and the property at the place that the number has in the type. -/
def resolve (t : TypeTable) (e : Entity) (globalIndex : Nat) : Except Abort Property :=
  match t.propertyNames[globalIndex]? with
  | none => .error (.fault (.unknownProperty globalIndex))
  | some name =>
    match t.types.findIdx? fun type => decide (type.host = e.host) with
    | none => .error (.fault .unregisteredEntity)
    | some typePlace => do
      let type ← entry t.types[typePlace]?
      match type.properties.findIdx? fun p => decide (p.globalIndex? = some globalIndex) with
      | none => .error (.fault (.propertyNotOnType type.name name))
      | some place => entry type.properties[place]?

/-- The value of a property of an entity. -/
def readProperty (t : TypeTable) (e : Entity) (globalIndex : Nat) : Except Abort Word := do
  let property ← resolve t e globalIndex
  match property.accessor.read? e with
  | some value => return value
  | none => .error (.fault .unregisteredEntity)

/-- The entity with another value of a property. -/
def writeProperty (t : TypeTable) (e : Entity) (globalIndex : Nat) (value : Word) :
    Except Abort Entity := do
  let property ← resolve t e globalIndex
  match property.accessor.write? e value with
  | some e => return e
  | none => .error (.fault .unregisteredEntity)

/-! ## Steps -/

/-- Go on at a distance from the address that comes next. -/
def jumpBy (size : Nat) (offset : Int) : StrictM Unit := do
  let target ← ofExcept fun c => addSigned c.thread.ip offset
  if 0 ≤ target ∧ target ≤ size then plain (Exec.goTo target.toNat)
  else throw (.fault (.jumpOutOfRange target size))

/-- Copy the top to a variable. -/
def assign (index : Nat) : StrictM Unit := do
  let value ← plain (Exec.onStack Stack.peek)
  let thread ← ofExcept fun c => setVariable c.thread index value
  plain (Exec.modifyThread fun _ => thread)

/-- Copy the top to a property of the entity. -/
def assignProperty (types : TypeTable) (property : Nat) : StrictM Unit := do
  let value ← plain (Exec.onStack Stack.peek)
  let entity ← ofExcept fun c => writeProperty types c.entity property value
  modify fun c => { c with entity }

/-- Take several values at once. -/
def popMany (count : Nat) : StrictM (List Word) := do
  let _ ← ofExcept fun c =>
    if c.thread.stack.size < count then .error (.fault .stackUnderflow)
    else sub c.thread.stack.size count
  plain (Exec.onStack (Stack.popMany count))

/-- The end of the slots for one more call. -/
def top (t : Thread) : Nat :=
  match t.frames with
  | [] => t.slots.size
  | f :: _ => f.base

/-- Where the slots of one more call begin. -/
def base (t : Thread) (extent : Nat) : Except Abort Nat :=
  if t.limits.depth ≤ t.frames.length then .error (.fault (.callDepthExceeded t.limits.depth))
  else if extent ≤ top t ∧ t.rootExtent ≤ top t - extent then .ok (top t - extent)
  else .error (.fault (.variableOutOfRange extent))

/-- The slots from `base` to those of the other calls are there, and enough for some arguments. -/
def checkRange (t : Thread) (base arguments : Nat) : Except Abort Unit := do
  require (base ≤ top t ∧ top t ≤ t.slots.size)
  require (arguments ≤ top t - base)

/-- Open a call. -/
def call (functions : RoutineTable) (function : Nat) : StrictM Unit := do
  let callee ← ofExcept fun _ =>
    match functions.at? function with
    | some callee => .ok callee
    | none => .error (.fault (.unknownFunction function))
  let extent := callee.variableCount
  let base ← ofExcept fun c => base c.thread extent
  let arguments ← popMany callee.parameterCount
  ofExcept fun c => checkRange c.thread base arguments.length
  let locals := arguments ++ List.replicate (extent - arguments.length) 0
  plain <| Exec.modifyThread fun t =>
    { t with
      slots := Thread.fill t.slots base locals
      frames := ⟨function, t.ip, base, extent, t.stack.size⟩ :: t.frames
      ip := 0 }

/-- Fire. -/
def shoot (shot : Shot) : StrictM Unit := do
  ofExcept fun _ => require (shot.arguments.length = shot.function.arity)
  plain (Exec.shoot shot)

/-- Execute an instruction of code of some size, the thread being at the address after it. -/
def execute (p : Program) (size : Nat) : Instr → StrictM Flow
  | .jumpBy offset => do jumpBy size offset; return .next
  | .branchIfZeroBy offset => do
    if ← plain Exec.popIsZero then jumpBy size offset
    return .next
  | .getVariable slot => do
    let value ← ofExcept fun c => getVariable c.thread slot
    plain (Exec.onStack (Stack.push value))
    return .next
  | .setVariable slot => do assign slot; return .next
  | .getProperty property => do
    let value ← ofExcept fun c => readProperty p.catalog.types c.entity property
    plain (Exec.onStack (Stack.push value))
    return .next
  | .setProperty property => do assignProperty p.catalog.types property; return .next
  | .call function => do call p.catalog.functions function; return .next
  | .fire index => do
    let function ← plain (Exec.firing p.catalog index)
    let arguments ← popMany function.arity
    shoot ⟨function, arguments, none⟩
    return .next
  | .fireWith index updater => do
    let function ← plain (Exec.firing p.catalog index)
    let routine ← ofExcept fun _ =>
      match p.catalog.bulletUpdater? updater with
      | some routine => .ok routine
      | none => .error (.fault (.unknownUpdater updater))
    let updaterArguments ← popMany routine.parameterCount
    let arguments ← popMany function.arity
    shoot ⟨function, arguments, some ⟨updater, updaterArguments⟩⟩
    return .next
  | i => plain (i.execute p size)

/-- One step. -/
def step (p : Program) : StrictM Flow := do
  let code ← plain (Exec.ofExcept fun c => p.running c.thread)
  if (← get).thread.ip < code.size then
    let (instr, next) ← ofExcept fun c => decode code.words c.thread.ip
    plain (Exec.goTo next)
    execute p code.size instr
  else plain p.fallOff

/-! ## Ticks -/

/-- What a tick of the strict machine comes to. -/
abbrev Result := Except Abort Status

/-- Take up to `fuel` steps, `spent` instructions of the tick having been executed. -/
def run (p : Program) : (fuel spent : Nat) → Config → Option (Result × Config)
  | 0, _, _ => none
  | fuel + 1, spent, c =>
    let counts := p.isAtInstr c.thread
    match if counts then c.thread.limits.exhausted? spent else none with
    | some budget => some (.error (.fault (.budgetExceeded budget)), c)
    | none =>
      match if counts then next spent else .ok spent with
      | .error abort => some (.error abort, c)
      | .ok spent =>
        match step p c with
        | .error abort c => some (.error abort, c)
        | .ok (.stop status) c => some (.ok status, c)
        | .ok .next c => run p fuel spent c

/-- One tick. -/
def tick (p : Program) (patience : Nat) (c : Config) : Option (Result × Config) :=
  let resume := run p (Program.fuel patience c.thread) 0
    { c with thread := { c.thread with mode := .ready } }
  match c.thread.mode with
  | .finished => some (.ok .completed, c)
  | .waiting (ticks + 2) =>
    some (.ok .suspended, { c with thread := { c.thread with mode := .waiting (ticks + 1) } })
  | .waiting _ | .ready => resume

/-- One tick of a routine of the catalog. -/
def tickRoutine (catalog : Catalog) (kind : RoutineKind) (index : Nat) (looping : Bool)
    (patience : Nat) (c : Config) : Option (Result × Config) :=
  match (catalog.routines kind).at? index with
  | none => some (.error (.fault (Catalog.missingRoutine kind index)), c)
  | some r =>
    match reserve c.thread r.variableCount with
    | .error abort => some (.error abort, c)
    | .ok thread => tick { catalog, code := r.code, looping } patience { c with thread }

end Danmaku.Strict
