import Utlib.Buffer.Basic
import Utlib.Layout
import Utlib.ZipArchive.Basic

/-! The operations of `utl::Buffer` beside its codecs. -/

namespace Utlib.Buffer

open Program Sequence Utlib.Path
open ZipArchive (Filesystem)

/-- A `float` by its representation. -/
structure FloatBits where
  bits : UInt32
  deriving DecidableEq, Inhabited

instance : Layout FloatBits := Layout.transport FloatBits.bits FloatBits.mk fun _ => rfl

section Import

variable {T : Type}

def manage (b : Buffer T) : Buffer T := { b with managed := some (b.ptr.map Block.base) }

/-- `ptr[i]` -/
def load (i : Nat) : EStateM Failure (Buffer T) T := do
  let b ← get
  match b.contents[i]? with
  | some value => pure value
  | none => throw .outOfBounds

/-- `for (i = 0; i < len; i++) ptr[i + offset] = value` -/
def storeAll (value : T) (offset len : Nat) : EStateM Failure (Buffer T) Unit :=
  forRange (fun i => store (i + offset) value) len 0

def initFill (new : New T) (elements : Nat) (value : T) : EStateM Failure (Buffer T) Unit := do
  alloc new elements
  let b ← get
  if b.ptr.isSome then storeAll value 0 b.size

def init [Inhabited T] (new : New T) (elements : Nat) : EStateM Failure (Buffer T) Unit :=
  initFill new elements default

/-- `buf` is `none` for the null pointer. -/
def initArray (new : New T) (buf : Option (List T)) (elements : Nat) :
    EStateM Failure (Buffer T) Unit :=
  match buf with
  | none => throw .assertion
  | some cells => do
    alloc new elements
    let b ← get
    if b.ptr.isSome then
      forRange (fun i => match cells[i]? with
        | some value => store i value
        | none => throw .outOfBounds) b.size 0

def initBuffer (new : New T) (other : Buffer T) : EStateM Failure (Buffer T) Unit := do
  alloc new other.size
  let b ← get
  if b.size ≠ 0 then
    match b.ptr with
    | none => throw .outOfBounds
    | some block =>
      require (b.size ≤ block.cells.length ∧ b.size ≤ other.contents.length) .outOfBounds
      set { b with ptr := some { block with
              cells := other.contents.take b.size ++ block.cells.drop b.size } }

def assign (new : New T) (other : Buffer T) : EStateM Failure (Buffer T) Unit :=
  initBuffer new other

def initString [Layout T] (new : New T) (str : List UInt8) : EStateM Failure (Buffer T) Unit :=
  initArray new (some (Layout.elements str)) (str.length / Layout.width T)

/-- A directory can be opened but not read. -/
def initPath [Layout T] (new : New T) (w : Filesystem (List UInt8)) (path : Path) :
    EStateM Failure (Buffer T) Unit :=
  match w.status path with
  | none => throw .throws
  | some .dir => initString new []
  | some (.file data) => initString new data

end Import

section Resize

variable {T : Type}

def clear (value : T) (offset len : Nat) : EStateM Failure (Buffer T) Unit := do
  let b ← get
  require (b.size = 0 ↔ b.ptr.isNone) .assertion
  require (offset + len ≤ b.size) .assertion
  if b.ptr.isSome then storeAll value offset len

/-- `buf[i] = ptr[i + offset]` for the indices in the list -/
def copyLoop (cells : List T) (offset : Nat) : List Nat → List T → Except Failure (List T)
  | [], buf => .ok buf
  | i :: rest, buf =>
    match cells[i + offset]? with
    | none => .error .outOfBounds
    | some value =>
      if i < buf.length then copyLoop cells offset rest (buf.set i value)
      else .error .outOfBounds

/-- What `buf` holds afterwards. -/
def copy (buf : List T) (offset len : Nat) (b : Buffer T) : Except Failure (List T) :=
  if (b.size = 0 ↔ b.ptr.isNone) ∧ offset + len ≤ b.size then
    match b.ptr with
    | none => .ok buf
    | some block => copyLoop block.cells offset (List.range len) buf
  else .error .assertion

def resize (new : New T) (elements : Nat) : EStateM Failure (Buffer T) Unit := do
  let b ← get
  require (b.size = 0 ↔ b.ptr.isNone) .assertion
  if b.size ≠ elements then
    if elements = 0 then dealloc
    else
      match new.block elements with
      | some block => do
        let cells ← look (copy block.cells 0 (min b.size elements))
        dealloc
        modify fun b => { b with ptr := some { block with cells }, size := elements }
      | none => modify fun b => { b with ptr := none, size := 0 }

def resizePad (new : New T) (elements : Nat) (pad : T) : EStateM Failure (Buffer T) Unit := do
  let b ← get
  let gap := elements - b.size
  resize new elements
  clear pad (elements - gap) gap

def strip (new : New T) (elements : Nat) : EStateM Failure (Buffer T) Unit := do
  let b ← get
  let newSize := b.size - elements
  forRange (fun i => do store i (← load (i + elements))) newSize 0
  resize new newSize

end Resize

end Utlib.Buffer
