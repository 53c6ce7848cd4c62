import LiteHttp.StringT
import LiteHttp.Lib.Block

/-!
# The representation of a string

`string_impl_t` of util/string_t.c with its three storage states: the small
buffer, a block of the heap, and a string without content that keeps either. The
operations as the source writes them, store by store.
-/

namespace LiteHttp

set_option autoImplicit false

inductive StringData where
  | small
  | heap (block : Bytes)
  deriving DecidableEq, Repr

/-- `string_impl_t`. `data` points to the small buffer or owns a block. -/
structure StringImpl where
  smallBuf : { buf : Bytes // buf.length = smallBufSize }
  data : StringData
  size : Nat
  capacity : Nat
  deriving DecidableEq

/-- The answer of the allocator and what the memory it gives holds. -/
structure StringAlloc where
  ok : Bool
  fill : Nat → Byte

/-- Memory that is never refused and holds the byte 170. -/
def usedMemory : StringAlloc := ⟨true, fun _ => 170⟩

/-- A `string_view_t`, or one whose pointer is null. -/
abbrev StringView := Option Bytes

def StringView.bytes (sv : StringView) : Bytes := sv.getD []

/-- `string_view_from_cstr`. -/
def StringView.fromCstr (cstr : Option Bytes) : StringView := cstr.map toCstr

/-- `string_view_from_parts`; the caller's array has at least `len` bytes. -/
def StringView.fromParts (data : Option Bytes) (len : Nat) : StringView := data.map (List.take len)

namespace StringImpl

/-- What `data` points to. -/
def buffer (s : StringImpl) : Bytes :=
  match s.data with
  | .small => s.smallBuf.1
  | .heap block => block

/-- `string_len`. -/
def len (s : StringImpl) : Nat := if s.size = 0 then 0 else s.size - 1

def write (s : StringImpl) (off : Nat) (xs : Bytes) : StringImpl :=
  match s.data with
  | .small =>
    { s with smallBuf := ⟨Block.write s.smallBuf.1 off xs, by rw [Block.length_write, s.smallBuf.2]⟩ }
  | .heap block => { s with data := .heap (Block.write block off xs) }

/-- Bytes stored through `data`, from `off` on. -/
def store (s : StringImpl) (off : Nat) (xs : Bytes) : Except Fault StringImpl :=
  if off + xs.length ≤ s.buffer.length then .ok (s.write off xs) else .error .undefined

/-- `realloc` of the block at `data`. -/
def realloc (a : StringAlloc) (s : StringImpl) (size : Nat) : Except Fault (Option Bytes) := do
  let ok ← malloc a.ok size
  return if ok then some (Block.moved a.fill size s.buffer) else none

/-- `use_sbuf`. -/
def useSbuf (b : Build) (s : StringImpl) : Except Fault Bool :=
  match s.data with
  | .small => do
    assert b .sbufCapacity (s.capacity = 0)
    return true
  | .heap _ => .ok false

def cpySmbuf2data (b : Build) (a : StringAlloc) (s : StringImpl) (newCap : Nat) :
    Except Fault (Bool × StringImpl) := do
  assert b .smbufCapacity (s.capacity = 0)
  assert b .smbufData (s.data = .small)
  assert b .smbufNewCap (newCap ≠ 0)
  let ok ← malloc a.ok newCap
  if !ok then return (false, s)
  else if smallBufSize < s.size ∨ newCap < s.size then .error .undefined
  else
    return (true, { s with
      data := .heap (Block.moved a.fill newCap (s.smallBuf.1.take s.size))
      capacity := newCap })

/-- `cpy_sv2str`; its offset is an `int`. -/
def cpySv2str (s : StringImpl) (sv : Bytes) (offset : Nat) : Except Fault StringImpl :=
  if 2 ^ 31 ≤ offset then .error .undefined
  else do
    let s ← s.store offset sv
    let s ← s.store (offset + sv.length) [0]
    return { s with size := offset + sv.length + 1 }

/-- `string_init`. -/
def init : StringImpl := ⟨⟨List.replicate smallBufSize 0, List.length_replicate⟩, .small, 0, 0⟩

/-- The all-zero struct, and what an initialiser leaves that got no memory: `data` is null, which
is not the small buffer and for `realloc` a block of no bytes. -/
def zeroed : StringImpl := { init with data := .heap [] }

/-- `string_init_from_string_view`; no string where the memory is missing. -/
def initFromStringView (a : StringAlloc) (sv : StringView) : Except Fault (Option StringImpl) :=
  match sv with
  | none => .ok (some init)
  | some bytes =>
    if bytes.length < smallBufSize then do
      let s ← init.cpySv2str bytes 0
      return some s
    else
      match nextCapacity (bytes.length + 1) with
      | none => .error .undefined
      | some newCapacity => do
        let ok ← malloc a.ok newCapacity
        if !ok then return none
        else
          let s := { init with data := .heap (Block.moved a.fill newCapacity []) }
          let s ← s.cpySv2str bytes 0
          return some { s with capacity := newCapacity }

def initFromCstr (a : StringAlloc) (cstr : Option Bytes) : Except Fault (Option StringImpl) :=
  initFromStringView a (.fromCstr cstr)

def initFromParts (a : StringAlloc) (cstr : Option Bytes) (len : Nat) :
    Except Fault (Option StringImpl) :=
  if cstr = none ∧ len ≠ 0 then .ok none else initFromStringView a (.fromParts cstr len)

/-- `string_take_ownership`. -/
def takeOwnership (s : StringImpl) (data : Bytes) (len : Nat) : StringImpl :=
  { s with size := len + 1, capacity := len + 1, data := .heap data }

/-- `string_clear`. -/
def clear (b : Build) (s : StringImpl) : Except Fault StringImpl := do
  let s := { s with size := 0 }
  let small ← s.useSbuf b
  if small then return s else return { s with capacity := 0, data := .small }

/-- `string_reserve`. -/
def reserve (b : Build) (a : StringAlloc) (s : StringImpl) (capacity : Nat) :
    Except Fault (Bool × StringImpl) :=
  if capacity ≤ s.size then .ok (false, s)
  else if capacity ≤ s.capacity then .ok (true, s)
  else
    match nextCapacity capacity with
    | none => .error .undefined
    | some capacity => do
      let small ← s.useSbuf b
      if small then s.cpySmbuf2data b a capacity
      else
        match ← s.realloc a capacity with
        | none => return (false, s)
        | some block => return (true, { s with data := .heap block, capacity := capacity })

/-- `memset` of the bytes behind the content, up to the new end, and the end itself. -/
def zeroFill (s : StringImpl) (newLen : Nat) : Except Fault StringImpl := do
  let s ← s.store s.size (List.replicate (newLen - s.size + 1) 0)
  return { s with size := newLen + 1 }

/-- `string_resize`. -/
def resize (b : Build) (a : StringAlloc) (s : StringImpl) (newLen : Nat) :
    Except Fault (Bool × StringImpl) :=
  if newLen = 0 then do
    let s ← s.clear b
    return (true, s)
  else if newLen < s.size then do
    let s ← { s with size := newLen + 1 }.store newLen [0]
    return (true, s)
  else if newLen < s.capacity then do
    let s ← s.zeroFill newLen
    let s ← s.store newLen [0]
    return (true, s)
  else do
    let small ← s.useSbuf b
    if small then
      assert b .resizeSbuf (s.data = .small)
      if newLen < smallBufSize then
        let s ← s.zeroFill newLen
        let s ← s.store newLen [0]
        return (true, s)
      else
        match nextCapacity (newLen + 1) with
        | none => .error .undefined
        | some capacity =>
          let (ok, s) ← s.cpySmbuf2data b a capacity
          if !ok then return (false, s)
          else
            let s ← s.zeroFill newLen
            let s ← { s with capacity := capacity }.store newLen [0]
            return (true, s)
    else
      match nextCapacity (newLen + 1) with
      | none => .error .undefined
      | some capacity =>
        match ← s.realloc a capacity with
        | none => return (false, s)
        | some block =>
          let s ← { s with data := .heap block }.zeroFill newLen
          return (true, { s with capacity := capacity })

/-- `string_assign_view`. A growing block gets its end, not its content. -/
def assignView (b : Build) (a : StringAlloc) (s : StringImpl) (sv : StringView) :
    Except Fault (Bool × StringImpl) :=
  match nextCapacity (sv.bytes.length + 1) with
  | none => .error .undefined
  | some newCapacity =>
    match sv with
    | none => do
      let s ← s.clear b
      return (true, s)
    | some bytes => do
      let small ← s.useSbuf b
      if small then
        if bytes.length < smallBufSize then
          let s ← s.cpySv2str bytes 0
          return (true, s)
        else
          let ok ← malloc a.ok newCapacity
          if !ok then return (false, s)
          else
            let s ← { s with data := .heap (Block.moved a.fill newCapacity []) }.cpySv2str bytes 0
            return (true, { s with capacity := newCapacity, smallBuf := init.smallBuf })
      else if bytes.length < s.capacity then
        let s ← s.cpySv2str bytes 0
        return (true, s)
      else
        match ← s.realloc a newCapacity with
        | none => return (false, s)
        | some block =>
          let s ← { s with data := .heap block }.store bytes.length [0]
          return (true, { s with size := bytes.length + 1, capacity := newCapacity })

/-- `string_assign`. -/
def assign (b : Build) (a : StringAlloc) (s : StringImpl) (cstr : Option Bytes) :
    Except Fault (Bool × StringImpl) :=
  s.assignView b a (.fromCstr cstr)

/-- `string_append_view`. -/
def appendView (b : Build) (a : StringAlloc) (s : StringImpl) (sv : StringView) :
    Except Fault (Bool × StringImpl) :=
  let oldLen := s.len
  match nextCapacity (sv.bytes.length + oldLen + 1) with
  | none => .error .undefined
  | some newCapacity => do
    let small ← s.useSbuf b
    if small then
      let (ok, s) ← s.cpySmbuf2data b a newCapacity
      if !ok then return (false, s)
      else
        let s ← s.cpySv2str sv.bytes oldLen
        return (true, { s with capacity := newCapacity })
    else
      match ← s.realloc a newCapacity with
      | none => return (false, s)
      | some block =>
        let s ← { s with data := .heap block }.cpySv2str sv.bytes oldLen
        return (true, { s with capacity := newCapacity })

def appendCstr (b : Build) (a : StringAlloc) (s : StringImpl) (cstr : Option Bytes) :
    Except Fault (Bool × StringImpl) :=
  if cstr = none then .ok (false, s) else s.appendView b a (.fromCstr cstr)

/-- `string_append_string`, with the content of the other string. -/
def appendString (b : Build) (a : StringAlloc) (s : StringImpl) (appendS : Bytes) :
    Except Fault (Bool × StringImpl) :=
  s.appendView b a (some appendS)

def appendParts (b : Build) (a : StringAlloc) (s : StringImpl) (cstr : Option Bytes) (len : Nat) :
    Except Fault (Bool × StringImpl) :=
  if cstr = none ∧ 0 < len then .ok (false, s) else s.appendView b a (.fromParts cstr len)

/-- `string_append`. -/
def append (b : Build) (a : StringAlloc) (s : StringImpl) (cstr : Option Bytes) :
    Except Fault (Bool × StringImpl) :=
  s.appendView b a (.fromCstr cstr)

/-- `string_push_back`; what the append returns is not looked at. -/
def pushBack (b : Build) (a : StringAlloc) (s : StringImpl) (ch : Byte) :
    Except Fault (Bool × StringImpl) := do
  let (_, s) ← s.appendView b a (some [ch])
  return (true, s)

/-- `string_substr` into the target `s`, with the content of the string it cuts; the target is
cleared first and then initialised anew. -/
def substr (b : Build) (a : StringAlloc) (s : StringImpl) (str : Bytes) (pos len : Nat) :
    Except Fault (Bool × StringImpl) := do
  let _ ← s.clear b
  match ← initFromStringView a (some (stringViewSubstr str pos len)) with
  | none => return (false, zeroed)
  | some s => return (true, s)

end StringImpl

end LiteHttp
