import OsLab.Lib.Bytes
import OsLab.Lib.Hoare
import OsLab.Lib.Linked

/-!
# The storage allocator

`malloc` and `free` of the user library. The headers lie in the same memory as the blocks that the application is
given, so that memory is bytes by address. A pointer is its address, `NULL` is 0, and `sbrk` is asked of the kernel.

The free blocks are to form a ring in the order of their addresses, which begins at the variable `base`.
`free` looks for the place of a block in the ring and joins it with its neighbours; `malloc` takes the first
block that is large enough, or has `morecore` get one from the kernel.
-/

namespace OsLab.Libc

open Lib ProgM

/-! ### Headers -/

/-- `p->s.ptr`. -/
def ptr (m : ℕ → UInt8) (p : ℕ) : ℕ := (get64 m p).toNat

/-- `p->s.size`. -/
def size (m : ℕ → UInt8) (p : ℕ) : ℕ := (get64 m (p + 8)).toNat

/-- `p->s.ptr = v`. -/
def setPtr (m : ℕ → UInt8) (p v : ℕ) : ℕ → UInt8 := put64 m p (UInt64.ofNat v)

/-- `p->s.size = n`. -/
def setSize (m : ℕ → UInt8) (p n : ℕ) : ℕ → UInt8 := put64 m (p + 8) (UInt64.ofNat n)

/-- `sizeof(Header)`. -/
def sizeofHeader : ℕ := 16

/-- `p + n`, in headers. -/
def plus (p n : ℕ) : ℕ := (p + sizeofHeader * n) % 2 ^ 64

/-! ### The functions -/

/-- A block: the address of its header and its size in headers, its own included. -/
structure Block where
  addr : ℕ
  units : ℕ

/-- Where a block ends. -/
def Block.stop (b : Block) : ℕ := b.addr + 16 * b.units

/-- The memory of the process and `freep`. -/
structure Store where
  mem : ℕ → UInt8
  freep : ℕ
  /-- The blocks that `morecore` has made of what it asked for, the last one first; not a variable of the source. -/
  obtained : List Block

/-- What is asked of the kernel. -/
inductive Op where
  /-- `sbrk(increment)`. -/
  | sbrk (increment : UInt64)

/-- What is answered: the old break, or `none` for -1. -/
@[reducible] def Op.Res : Op → Type
  | .sbrk _ => Option UInt64

/-- Programs of the library. -/
abbrev LibM := ProgM Store Op Op.Res

/-- More than the steps of a walk along the ring: headers take 16 bytes of 64-bit addresses. -/
def HOPS : ℕ := 2 ^ 64

/-- Where the loop of `free` stops: `bp > p && bp < p->s.ptr`, or `p >= p->s.ptr && (bp > p || bp < p->s.ptr)`. -/
def stopsAt (m : ℕ → UInt8) (bp p : ℕ) : Bool :=
  (bp > p && bp < ptr m p) || (p ≥ ptr m p && (bp > p || bp < ptr m p))

/-- `if (bp + bp->s.size == p->s.ptr) ...`: join the block with the next one, or link it to that. -/
def joinUpper (p bp : ℕ) (m : ℕ → UInt8) : ℕ → UInt8 :=
  if plus bp (size m bp) = ptr m p then
    let m := setSize m bp ((size m bp + size m (ptr m p)) % 2 ^ 64)
    setPtr m bp (ptr m (ptr m p))
  else setPtr m bp (ptr m p)

/-- `if (p + p->s.size == bp) ...`: join the block with the one before it, or link that to it. -/
def joinLower (p bp : ℕ) (m : ℕ → UInt8) : ℕ → UInt8 :=
  if plus p (size m p) = bp then
    let m := setSize m p ((size m p + size m bp) % 2 ^ 64)
    setPtr m p (ptr m bp)
  else setPtr m p bp

/-- `free(ap)`. -/
def free (ap : ℕ) : LibM Unit := do
  let s ← get
  let bp := (ap + 2 ^ 64 - sizeofHeader) % 2 ^ 64
  match Lib.seek (ptr s.mem) (stopsAt s.mem bp) HOPS s.freep with
  | none => stop
  | some p => modify fun s => { s with mem := joinLower p bp (joinUpper p bp s.mem), freep := p }

/-- `if (nu < 4096) nu = 4096`. -/
def asked (nu : ℕ) : ℕ := if nu < 4096 then 4096 else nu

/-- What `sbrk` is asked for. -/
def increment (nu : ℕ) : UInt64 := UInt64.ofNat (asked nu * sizeofHeader)

/-- What `sbrk` was asked for becomes a block: `hp->s.size = nu`. -/
def Store.addBlock (s : Store) (b : Block) : Store :=
  { s with mem := setSize s.mem b.addr b.units, obtained := b :: s.obtained }

theorem Store.addBlock_mem (s : Store) (b : Block) : (s.addBlock b).mem = setSize s.mem b.addr b.units := by
  rw [Store.addBlock]

/-- `morecore(nu)`. -/
def morecore (nu : ℕ) : LibM ℕ := do
  match ← perform (.sbrk (increment nu)) with
  | none => pure 0
  | some p => do
    modify fun s => s.addBlock ⟨p.toNat, asked nu⟩
    free (plus p.toNat 1)
    let s ← get
    pure s.freep

/-- Take a block that is large enough, which `prevp` points to: the whole block, or its tail. -/
def take (nunits prevp p : ℕ) (s : Store) : ℕ × Store :=
  if size s.mem p = nunits then (plus p 1, { s with mem := setPtr s.mem prevp (ptr s.mem p), freep := prevp })
  else
    let m := setSize s.mem p (size s.mem p - nunits)
    let p := plus p (size m p)
    (plus p 1, { s with mem := setSize m p nunits, freep := prevp })

/-- The loop of `malloc`, from `prevp` and `p` on. -/
def mallocLoop (nunits : ℕ) : ℕ → ℕ → ℕ → LibM ℕ
  | 0, _, _ => stop
  | fuel + 1, prevp, p => do
    let s ← get
    if size s.mem p ≥ nunits then do
      set (take nunits prevp p s).2
      pure (take nunits prevp p s).1
    else if p = s.freep then do
      let p ← morecore nunits
      if p = 0 then pure 0
      else do
        let s ← get
        mallocLoop nunits fuel p (ptr s.mem p)
    else mallocLoop nunits fuel p (ptr s.mem p)

/-- The size of a block for `nbytes` bytes, in headers. -/
def units (nbytes : ℕ) : ℕ := (nbytes + sizeofHeader - 1) % 2 ^ 64 / sizeofHeader + 1

/-- `if ((prevp = freep) == 0) ...`: the ring of `base` alone. -/
def initRing (base : ℕ) (s : Store) : Store :=
  if s.freep = 0 then { s with mem := setSize (setPtr s.mem base base) base 0, freep := base } else s

/-- `malloc(nbytes)`, where `base` is the address of the variable. -/
def malloc (base nbytes : ℕ) : LibM ℕ := do
  modify (initRing base)
  let s ← get
  mallocLoop (units nbytes) HOPS s.freep (ptr s.mem s.freep)

end OsLab.Libc
