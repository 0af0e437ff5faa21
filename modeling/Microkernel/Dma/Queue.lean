/-
  Microkernel.Dma.Queue — the DMA request queue of src/dma.cc.

  Descriptors are carved from the bottom of the DMA window and never given back, data
  buffers from its top; both stop where they meet. `dma_submit_memcpy` links a descriptor
  behind `g_pending_tail`. `dma_poll_complete` takes requests off `g_pending_head` one at a
  time: it copies, sets the status and calls the request's callback, which is client code
  and may submit and poll again. So the machine has a stack: the calls of
  `dma_poll_complete` that are under way, each at its place in the loop, and between them
  the client code that made them.

  Memory is bytes, with the descriptors in it. The CPU and the device reach it through the
  same map `pa`; the descriptors lie in the window, which is mapped to itself. No
  interrupt is taken between steps. What the caches do to a copy is the subject of
  `Dma.Coherence`.
-/

import Mathlib
import Microkernel.Lib.Align
import Microkernel.Lib.Bytes
import Microkernel.Lib.Linked

namespace Microkernel.Dma

open Bytes Align Linked

/-- The window from `__dma_nc_start` to `__dma_nc_end`, and what an address means. -/
structure Platform where
  ncStart : Addr
  ncEnd : Addr
  pos : 0 < ncStart.toNat
  le : ncStart.toNat ≤ ncEnd.toNat
  room : ncEnd.toNat + 64 ≤ 2 ^ 64
  /-- `SCTLR_EL1.M`. -/
  mmuOn : Bool
  pa : Addr → Addr

/-! ## The views of a buffer -/

def kNormalStart : Addr := 0x40000000#64
def kNormalEnd : Addr := 0x80000000#64
def kAliasStart : Addr := 0x80000000#64
def kAliasEnd : Addr := 0xC0000000#64
def kAliasOffset : Addr := 0x40000000#64

/-- `dma_device_view`: the non-cacheable alias of a buffer in RAM. -/
def deviceView (mmuTranslationEnabled : Bool) (buf len : Addr) : Addr :=
  if buf = 0#64 ∨ len = 0#64 then buf
  else if !mmuTranslationEnabled then buf
  else
    let stop := buf + (len - 1#64)
    if stop < buf then buf
    else if kAliasStart ≤ buf ∧ stop < kAliasEnd then buf
    else if kNormalStart ≤ buf ∧ stop < kNormalEnd then buf + kAliasOffset
    else buf

/-- `dma_memcpy`: byte by byte, upwards. -/
def dmaMemcpy (pa : Addr → Addr) : Nat → Mem → Addr → Addr → Mem
  | 0, m, _, _ => m
  | n + 1, m, d, s => dmaMemcpy pa n (Function.update m (pa d) (m (pa s))) (d + 1#64) (s + 1#64)

/-! ## Descriptors -/

/-- A `dma_desc` at its address, without its status and its link. -/
structure Req where
  desc : Addr
  dst : Addr
  src : Addr
  len : Addr
  cb : Addr
  user : Addr

/-- `sizeof(dma_desc)`. -/
def descSize : Nat := 56

/-- The word at offset `o` of the descriptor at `d`. -/
def field (m : Mem) (d : Addr) (o : Nat) : Addr := load64 m (d + BitVec.ofNat 64 o)

def setField (m : Mem) (d : Addr) (o : Nat) (v : Addr) : Mem := store64 m (d + BitVec.ofNat 64 o) v

def offSrc : Nat := 0
def offDst : Nat := 8
def offLen : Nat := 16
def offStatus : Nat := 24
def offCb : Nat := 32
def offUser : Nat := 40
def offNext : Nat := 48

/-- The words of a descriptor that has just been submitted. -/
def Req.words (r : Req) : List (Nat × Addr) :=
  [(offSrc, r.src), (offDst, r.dst), (offLen, r.len), (offStatus, 1#64), (offCb, r.cb), (offUser, r.user), (offNext, 0#64)]

/-- The request that stands in the descriptor. -/
def reqAt (m : Mem) (d : Addr) : Req :=
  ⟨d, field m d offDst, field m d offSrc, field m d offLen, field m d offCb, field m d offUser⟩

/-- A pointer. -/
def ptr (a : Addr) : Option Addr := if a = 0#64 then none else some a

/-- The link of the descriptor. -/
def linkOf (m : Mem) (d : Addr) : Option Addr := ptr (field m d offNext)

/-! ## src/dma.cc: the globals and the two entry points -/

/-- `g_dma_desc_next`, `g_dma_buf_end`, `g_pending_head`, `g_pending_tail`, and memory. -/
structure Queue where
  descNext : Addr
  bufEnd : Addr
  head : Addr
  tail : Addr
  mem : Mem

namespace Queue

def init (P : Platform) (m : Mem) : Queue := ⟨P.ncStart, P.ncEnd, 0#64, 0#64, m⟩

/-- `dma_alloc_desc`; the result 0 is null. -/
def allocDesc (q : Queue) : Queue × Addr :=
  let aligned := roundUp q.descNext 8#64
  if q.bufEnd < aligned + BitVec.ofNat 64 descSize then (q, 0#64)
  else ({ q with descNext := aligned + BitVec.ofNat 64 descSize }, aligned)

/-- `dma_alloc_buffer`; the result 0 is null. -/
def allocBuffer (q : Queue) (len align : Addr) : Queue × Addr :=
  if len = 0#64 then (q, 0#64)
  else
    let align := if align = 0#64 then 1#64 else align
    if align &&& (align - 1#64) ≠ 0#64 then (q, 0#64)
    else if q.bufEnd < len then (q, 0#64)
    else
      let start := (q.bufEnd - len) &&& ~~~(align - 1#64)
      if start < q.descNext then (q, 0#64) else ({ q with bufEnd := start }, start)

/-- The stores to a new descriptor. -/
def fillDesc (m : Mem) (r : Req) : Mem := storeWords m r.desc r.words

/-- Linking behind `g_pending_tail`. -/
def link (q : Queue) (desc : Addr) : Queue :=
  if q.tail = 0#64 then { q with head := desc, tail := desc }
  else { q with mem := setField q.mem q.tail offNext desc, tail := desc }

/-- `dma_submit_memcpy`. -/
def submitMemcpy (q : Queue) (dst src len cb user : Addr) : Queue × Int :=
  if dst = 0#64 ∨ src = 0#64 ∨ len = 0#64 then (q, -1)
  else
    let (q', desc) := q.allocDesc
    if desc = 0#64 then (q', -2)
    else (link { q' with mem := fillDesc q'.mem ⟨desc, dst, src, len, cb, user⟩ } desc, 0)

/-- `dma_poll_complete` takes the first request off the list. -/
def pop (q : Queue) : Queue :=
  let next := field q.mem q.head offNext
  { q with head := next, tail := if next = 0#64 then 0#64 else q.tail, mem := setField q.mem q.head offNext 0#64 }

/-- The copy of the request `r`. -/
def copy (P : Platform) (q : Queue) (r : Req) : Queue :=
  { q with mem := dmaMemcpy P.pa r.len.toNat q.mem (deviceView P.mmuOn r.dst r.len) (deviceView P.mmuOn r.src r.len) }

/-- `desc->status = 0`. -/
def setDone (q : Queue) (d : Addr) : Queue := { q with mem := setField q.mem d offStatus 0#64 }

end Queue

/-! ## Clients -/

/-- The client code that is left to run. It does finitely many steps of its own
    whatever the calls return: `own` changes memory and goes on with what it then reads. -/
inductive Code where
  | done
  | own (f : Mem → Mem) (k : Mem → Code)
  | submit (dst src len cb user : Addr) (k : Int → Code)
  | poll (k : Code)
  | allocBuffer (len align : Addr) (k : Addr → Code)

/-- The code of a callback, given its address and its two arguments. -/
abbrev Callbacks := Addr → Addr → Int → Code

inductive Frame where
  | client (c : Code)
  /-- `dma_poll_complete` at its loop's head. -/
  | poll
  /-- It has taken the request off the list. -/
  | popped (d : Addr)
  /-- It has copied. -/
  | copied (d : Addr)

/-- What has happened, for the properties only. -/
inductive Event where
  | accepted (r : Req)
  | rejected (code : Int)
  | copied (r : Req)
  | started (cb user : Addr) (status : Int)

structure Sys where
  q : Queue
  stack : List Frame
  /-- Newest first. -/
  log : List Event

/-- Boot: the client code `c` runs, and nothing is queued. -/
def boot (P : Platform) (m : Mem) (c : Code) : Sys := ⟨Queue.init P m, [.client c], []⟩

/-! ## Steps -/

/-- One step of the client code on top of the frames `fs`. -/
def clientStep (s : Sys) (fs : List Frame) : Code → Sys
  | .done => { s with stack := fs }
  | .own f k => { s with q := { s.q with mem := f s.q.mem }, stack := .client (k (f s.q.mem)) :: fs }
  | .submit dst src len cb user k =>
    let (q, code) := s.q.submitMemcpy dst src len cb user
    let e := if code = 0 then Event.accepted ⟨q.tail, dst, src, len, cb, user⟩ else Event.rejected code
    ⟨q, .client (k code) :: fs, e :: s.log⟩
  | .poll k => { s with stack := .poll :: .client k :: fs }
  | .allocBuffer len align k =>
    let (q, p) := s.q.allocBuffer len align
    { s with q := q, stack := .client (k p) :: fs }

/-- The loop condition and the first lines of the body. -/
def pollStep (s : Sys) (fs : List Frame) : Sys :=
  if s.q.head = 0#64 then { s with stack := fs }
  else { s with q := s.q.pop, stack := .popped s.q.head :: fs }

/-- `if (len)`: the copy. -/
def copyStep (P : Platform) (s : Sys) (fs : List Frame) (d : Addr) : Sys :=
  let r := reqAt s.q.mem d
  if r.len = 0#64 then { s with stack := .copied d :: fs }
  else ⟨s.q.copy P r, .copied d :: fs, .copied r :: s.log⟩

/-- The status, and the callback if there is one. -/
def finishStep (cbs : Callbacks) (s : Sys) (fs : List Frame) (d : Addr) : Sys :=
  let q := s.q.setDone d
  let cb := field q.mem d offCb
  let user := field q.mem d offUser
  if cb = 0#64 then { s with q := q, stack := .poll :: fs }
  else ⟨q, .client (cbs cb user 0) :: .poll :: fs, .started cb user 0 :: s.log⟩

/-- The next step; a system whose stack is empty has none. -/
def step (P : Platform) (cbs : Callbacks) (s : Sys) : Option Sys :=
  match s.stack with
  | [] => none
  | .client c :: fs => some (clientStep s fs c)
  | .poll :: fs => some (pollStep s fs)
  | .popped d :: fs => some (copyStep P s fs d)
  | .copied d :: fs => some (finishStep cbs s fs d)

/-- Any number of steps. -/
inductive Steps (P : Platform) (cbs : Callbacks) (s : Sys) : Sys → Prop
  | refl : Steps P cbs s s
  | tail {t u : Sys} : Steps P cbs s t → step P cbs t = some u → Steps P cbs s u

theorem Steps.trans {P : Platform} {cbs : Callbacks} {s t u : Sys} (h : Steps P cbs s t) (h' : Steps P cbs t u) :
    Steps P cbs s u := by
  induction h' with
  | refl => exact h
  | tail _ hs ih => exact .tail ih hs

/-! ## Keeping off the descriptors -/

/-- The part of the window that descriptors were carved from. -/
def Carved (P : Platform) (q : Queue) (a : Addr) : Prop := P.ncStart ≤ a ∧ a < q.descNext

/-- What the next step writes is no byte of a descriptor. -/
def OffDescs (P : Platform) (s : Sys) : Prop :=
  match s.stack with
  | .client (.own f _) :: _ => ∀ a, Carved P s.q a → f s.q.mem a = s.q.mem a
  | .popped d :: _ =>
    let r := reqAt s.q.mem d
    ∀ i < r.len.toNat, ¬ Carved P s.q (P.pa (deviceView P.mmuOn r.dst r.len + BitVec.ofNat 64 i))
  | _ => True

end Microkernel.Dma
