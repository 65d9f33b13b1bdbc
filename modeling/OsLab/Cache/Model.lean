import OsLab.Card
import OsLab.Lib.Ring

/-!
# The buffer cache

`kernel/fs/fs.c` keeps copies of card sectors in `NBUF` buffers. Buffers in use are linked
into a ring around the sentinel `bcache->head`, most recently filled first; a sector is
looked up along the ring, a missing sector is read into a free buffer, and when no buffer is
free the last one of the ring is written back and reused. `bwrite` and `bread` go through
the cache one sector at a time.

The functions below are the ones of the source, with the state passed explicitly. `none`
stands for a run that does not get past the call: a null pointer is followed, or a walk
along the ring does not come back to the sentinel.
-/

namespace OsLab

open Lib

/-- `NBUF`, the number of buffers. -/
def NBUF : ℕ := 0x5000

/-- `page_cache_policy`. -/
inductive Policy where
  /-- `BWRITE_BACK`. -/
  | writeBack
  /-- `BWRITE_THROUGH`. -/
  | writeThrough
  deriving DecidableEq, Repr

/-- What a list pointer of the cache points to. -/
inductive BufNode where
  /-- `&bcache->head`. -/
  | head
  /-- `&bcache->buf[i]`. -/
  | buf (i : Fin NBUF)
  deriving DecidableEq

/-- `buf_t`, without its list pointers. -/
structure Buf where
  /-- Whether the buffer holds a sector. -/
  valid : UInt16
  /-- Whether it has been written since it was filled or flushed. -/
  dirty : UInt16
  /-- The sector it holds. -/
  sectorid : ℕ
  /-- The bytes. -/
  data : Sector

/-- The cache, the card below it, and the policy. -/
structure Bcache where
  /-- `bcache->buf`. -/
  buf : Fin NBUF → Buf
  /-- The `next` and `prev` pointers of the buffers and of `bcache->head`. -/
  links : Links BufNode
  /-- The card. -/
  card : Card
  /-- `page_cache_policy`. -/
  page_cache_policy : Policy

namespace Bcache

/-- Assign a buffer. -/
def setBuf (c : Bcache) (i : Fin NBUF) (b : Buf) : Bcache := { c with buf := Function.update c.buf i b }

/-- `bios_sd_write(data, 1, sectorid)`. -/
def bios_sd_write (c : Bcache) (sectorid : ℕ) (data : Sector) : Bcache :=
  { c with card := Function.update c.card sectorid data }

/-- `init_bcache`: empty the ring and mark every buffer free. -/
def init_bcache (c : Bcache) : Bcache :=
  { c with links := c.links.selfLink .head, buf := fun i => { c.buf i with valid := 0 } }

/-- Write a dirty buffer to the card. -/
def flushBuf (c : Bcache) (i : Fin NBUF) : Bcache :=
  if (c.buf i).dirty ≠ 0 then
    (c.bios_sd_write (c.buf i).sectorid (c.buf i).data).setBuf i { c.buf i with dirty := 0 }
  else c

/-- `find_free_buf`: the first free buffer, else the last one of the ring, written back and
unlinked; the null pointer (`some (none, _)`) when the ring is empty. -/
def find_free_buf (c : Bcache) : Option (Option (Fin NBUF) × Bcache) :=
  match (List.finRange NBUF).find? fun i => (c.buf i).valid = 0 with
  | some i => some (some i, c)
  | none =>
    match c.links.prev .head with
    | none => none
    | some .head => some (none, c)
    | some (.buf i) => do
      let c := c.flushBuf i
      let c := c.setBuf i { c.buf i with valid := 0, sectorid := 0 }
      let links ← c.links.unlink (.buf i)
      some (some i, { c with links })

/-- Whether a node of the ring is a valid buffer of a sector. -/
def holds (c : Bcache) (sectorid : ℕ) : BufNode → Bool
  | .head => false
  | .buf i => (c.buf i).valid = 1 ∧ (c.buf i).sectorid = sectorid

/-- `search_buf`: look a sector up along the ring; the null pointer when it is not there. -/
def search_buf (c : Bcache) (sectorid : ℕ) : Option (Option (Fin NBUF)) := do
  let first ← c.links.next .head
  let found ← c.links.find .head (c.holds sectorid) (NBUF + 1) first
  match found with
  | some (.buf i) => some (some i)
  | _ => some none

/-- `brefill`: read a sector into a free buffer and put the buffer in front. -/
def brefill (c : Bcache) (sectorid : ℕ) : Option (Option (Fin NBUF) × Bcache) := do
  let (buf, c) ← c.find_free_buf
  match buf with
  | none => some (none, c)
  | some i =>
    let c := c.setBuf i ⟨1, 0, sectorid, c.card sectorid⟩
    let links ← c.links.insertFront (.buf i) .head
    some (some i, { c with links })

/-- The buffer of a sector: `search_buf`, and `brefill` when the sector is not there. The
callers follow the pointer without a test, so a null pointer ends the run. -/
def getBuf (c : Bcache) (sectorid : ℕ) : Option (Fin NBUF × Bcache) := do
  match ← c.search_buf sectorid with
  | some i => some (i, c)
  | none =>
    match ← c.brefill sectorid with
    | (some i, c) => some (i, c)
    | (none, _) => none

/-- One iteration of `bwrite`: the sector gets the 512 bytes at `mem_va`. -/
def bwriteSector (c : Bcache) (mem : Bytes) (sectorid : ℕ) : Option Bcache := do
  let (i, c) ← c.getBuf sectorid
  let c := c.setBuf i { c.buf i with data := mem.sector 0 }
  match c.page_cache_policy with
  | .writeThrough => some (c.bios_sd_write sectorid (c.buf i).data)
  | .writeBack => some (c.setBuf i { c.buf i with dirty := 1 })

/-- `bwrite(mem_va, nsectors, sectorid)`. Every iteration copies from `mem_va` itself: the
source does not advance the address. -/
def bwrite (c : Bcache) (mem : Bytes) (nsectors sectorid : ℕ) : Option Bcache :=
  (List.range nsectors).foldlM (fun c i => c.bwriteSector mem ((sectorid + i) % 2 ^ 32)) c

/-- One iteration of `bread`: the 512 bytes at `mem_va` become the sector. -/
def breadSector (c : Bcache) (mem : Bytes) (sectorid : ℕ) : Option (Bytes × Bcache) := do
  let (i, c) ← c.getBuf sectorid
  some (mem.put 0 (c.buf i).data, c)

/-- `bread(mem_va, nsectors, sectorid)`, likewise without advancing `mem_va`. -/
def bread (c : Bcache) (mem : Bytes) (nsectors sectorid : ℕ) : Option (Bytes × Bcache) :=
  (List.range nsectors).foldlM (fun mc i => mc.2.breadSector mc.1 ((sectorid + i) % 2 ^ 32)) (mem, c)

/-- The loop of `bflush`, from a node of the ring on. -/
def bflushFrom : ℕ → Bcache → BufNode → Option Bcache
  | 0, _, _ => none
  | _ + 1, c, .head => some c
  | fuel + 1, c, .buf i => ((c.flushBuf i).links.next (.buf i)).bind (bflushFrom fuel (c.flushBuf i))

/-- `bflush`: write every dirty buffer of the ring to the card. -/
def bflush (c : Bcache) : Option Bcache := (c.links.next .head).bind (bflushFrom (NBUF + 1) c)

end Bcache

end OsLab
