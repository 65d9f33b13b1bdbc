import Mathlib.Data.List.Basic
import OsLab.Card
import OsLab.Lib.Bytes

/-!
# The image and the loader

`tools/createimage.c` runs on the host: it concatenates the loadable segments of the boot block, the
kernel and the tasks into one file, keeps room for the table of tasks behind the kernel, and fills in the
table and a few words of the boot sector at the end (`create_image`). On the board the image is the
beginning of the card. `head.S` moves the table to `tasks`. `load_task_img` of `kernel/loader/loader.c` gets
an entry of it, maps pages from the entry point on, reads the sectors of the task into them, and moves the
bytes down by the offset of the task in its first sector.

The loader is modelled over the address space of the new process as the process sees it: which pages are
mapped, and the bytes at virtual addresses. A frame is free whenever the loader asks for one. An access
outside the mapped pages has no result, and neither has a mapping of page 0, which `create_PageNode`
refuses, or outside the user half.
-/

namespace OsLab.Image

open Lib

/-! ### Input files -/

/-- `PT_LOAD`. -/
def PT_LOAD : ℕ := 1

/-- `TASK_MAXNUM`. -/
def TASK_MAXNUM : ℕ := 16

/-- `MAX_NAME_LEN`. -/
def MAX_NAME_LEN : ℕ := 64

/-- A program header. -/
structure Phdr where
  p_type : ℕ
  p_offset : ℕ
  p_filesz : ℕ
  p_memsz : ℕ

/-- A file name: the characters of a C string. -/
abbrev FileName := List UInt8

/-- `"bootblock"`. -/
def bootblockName : FileName := [98, 111, 111, 116, 98, 108, 111, 99, 107]

/-- `"main"`. -/
def mainName : FileName := [109, 97, 105, 110]

/-- An ELF file. -/
structure Elf where
  name : FileName
  e_entry : ℕ
  phdrs : List Phdr
  /-- What `fputc(fgetc(fp), img)` writes at a position of the file: its byte, or `0xff` behind its end. -/
  file : ℕ → UInt8

/-- The loadable segments. -/
def Elf.loads (f : Elf) : List Phdr := f.phdrs.filter fun p => p.p_type = PT_LOAD

/-- The file contents of a segment. -/
def Elf.segment (f : Elf) (p : Phdr) : List UInt8 := bytes (fun j => f.file (p.p_offset + j)) p.p_filesz

/-- The file contents of the loadable segments, one after the other. -/
def Elf.contents (f : Elf) : List UInt8 := f.loads.flatMap f.segment

/-- The memory that the loadable segments take. -/
def Elf.memsize (f : Elf) : ℕ := (f.loads.map Phdr.p_memsz).sum

/-! ### The image -/

/-- `task_info_t`. -/
structure TaskInfo where
  taskname : FileName
  entrypoint : ℕ
  sector_num : ℕ
  firstsector : ℕ
  offset : ℕ
  memsize : ℕ

/-- `sizeof(task_info_t)`. -/
def TaskInfo.size : ℕ := 88

/-- `ROUND(a, SECTOR_SIZE)`. -/
def ROUND (a : ℕ) : ℕ := (a + (SECTOR_SIZE - 1)) / SECTOR_SIZE * SECTOR_SIZE

/-- `ROUNDDOWN(a, SECTOR_SIZE)`. -/
def ROUNDDOWN (a : ℕ) : ℕ := a / SECTOR_SIZE * SECTOR_SIZE

/-- `NBYTES2SEC(nbytes)`. -/
def NBYTES2SEC (nbytes : ℕ) : ℕ := nbytes / SECTOR_SIZE + if nbytes % SECTOR_SIZE ≠ 0 then 1 else 0

/-- The variables of `create_image`. -/
structure Build where
  /-- What has been written to the image file. -/
  img : List UInt8 := []
  phyaddr : ℕ := 0
  nbytes_kernel : ℕ := 0
  nbytes_image : ℕ := 0
  taskinfo : List TaskInfo := []

/-- `write_segment(phdr, fp, img, &phyaddr)`. -/
def write_segment (f : Elf) (p : Phdr) (b : Build) : Build :=
  if p.p_memsz ≠ 0 ∧ p.p_type = PT_LOAD then
    { b with img := b.img ++ f.segment p, phyaddr := b.phyaddr + p.p_filesz }
  else b

/-- `write_padding(img, &phyaddr, new_phyaddr)`. -/
def write_padding (new_phyaddr : ℕ) (b : Build) : Build :=
  { b with
    img := b.img ++ List.replicate (new_phyaddr - b.phyaddr) 0, phyaddr := max b.phyaddr new_phyaddr }

/-- One program header: write the segment, and count its bytes. -/
def addPhdr (f : Elf) (taskinfo_size : ℕ) (b : Build) (p : Phdr) : Build :=
  if p.p_type ≠ PT_LOAD then b
  else
    let b := write_segment f p b
    let filesz := p.p_filesz % 2 ^ 32
    if f.name = mainName then
      { b with nbytes_kernel := b.nbytes_kernel + filesz, nbytes_image := b.nbytes_image + filesz + taskinfo_size }
    else if f.name = bootblockName then { b with nbytes_image := b.nbytes_image + SECTOR_SIZE }
    else { b with nbytes_image := b.nbytes_image + filesz }

/-- The padding behind a file. -/
def padFile (f : Elf) (taskinfo_size : ℕ) (b : Build) : Build :=
  if f.name = bootblockName then write_padding SECTOR_SIZE b
  else if f.name = mainName then write_padding (b.phyaddr + taskinfo_size) b
  else b

/-- One input file; the first two are not tasks. -/
def addFile (taskinfo_size : ℕ) (b : Build) (f : Elf) (fidx : ℕ) : Build :=
  let fi_phyaddr_begin := b.phyaddr
  let b := padFile f taskinfo_size (f.phdrs.foldl (addPhdr f taskinfo_size) b)
  if 2 ≤ fidx then
    { b with
      taskinfo := b.taskinfo ++ [{
        taskname := f.name
        sector_num := (ROUND b.phyaddr - ROUNDDOWN fi_phyaddr_begin) / SECTOR_SIZE % 2 ^ 32
        offset := fi_phyaddr_begin % SECTOR_SIZE
        firstsector := fi_phyaddr_begin / SECTOR_SIZE % 2 ^ 32
        entrypoint := f.e_entry
        memsize := (f.loads.map fun p => p.p_memsz % 2 ^ 32).sum % 2 ^ 32 }] }
  else b

/-- `fseek(img, pos, SEEK_SET); fwrite(bs, …, img);`, inside what has been written. -/
def overwrite (img : List UInt8) (pos : ℕ) (bs : List UInt8) : List UInt8 :=
  img.take pos ++ bs ++ img.drop (pos + bs.length)

/-- A little-endian word of `n` bytes. -/
def word (n v : ℕ) : List UInt8 := (List.range n).map (byte v)

/-- The bytes of a `task_info_t`. -/
def TaskInfo.bytes (t : TaskInfo) : List UInt8 :=
  t.taskname ++ List.replicate (MAX_NAME_LEN - t.taskname.length) 0 ++
    word 8 t.entrypoint ++ word 4 t.sector_num ++ word 4 t.firstsector ++
    word 4 t.offset ++ word 4 t.memsize

/-- `write_img_info(nbytes_kernel, nbytes_image, taskinfo, tasknum, img)`. -/
def write_img_info (b : Build) (tasknum : ℕ) : List UInt8 :=
  let img := overwrite b.img (b.nbytes_kernel + SECTOR_SIZE) (b.taskinfo.flatMap TaskInfo.bytes)
  let img := overwrite img 0x1fc (word 2 (NBYTES2SEC (b.nbytes_kernel + TaskInfo.size * tasknum)))
  let img := overwrite img 0x1f6 (word 2 tasknum ++ word 4 b.nbytes_kernel)
  let img := overwrite img 0x1f4 (word 2 0)
  overwrite img 0x1f2 (word 2 (NBYTES2SEC b.nbytes_image))

/-- The loop of `create_image` over the input files. -/
def addFiles (taskinfo_size : ℕ) (files : List Elf) : Build :=
  files.zipIdx.foldl (fun b f => addFile taskinfo_size b f.1 f.2) {}

/-- `create_image(nfiles, files)`: the image and the table of tasks. -/
def create_image (files : List Elf) : List UInt8 × List TaskInfo :=
  let tasknum := files.length - 2
  let b := addFiles (tasknum * TaskInfo.size) files
  (write_img_info b tasknum, b.taskinfo)

/-! ### The loader -/

/-- `tasks[i]`, as `head.S` finds it on the card: the kernel begins in sector 1, and the word at
`taskinfo_offset_loc` says how far behind it the table is. -/
def tasks (card : ℕ → UInt8) (i : ℕ) : TaskInfo :=
  let t := SECTOR_SIZE + (get32 card 0x1f8).toNat + TaskInfo.size * i
  { taskname := (bytes (fun j => card (t + j)) MAX_NAME_LEN).takeWhile (· ≠ 0)
    entrypoint := (get64 card (t + 64)).toNat
    sector_num := (get32 card (t + 72)).toNat
    firstsector := (get32 card (t + 76)).toNat
    offset := (get32 card (t + 80)).toNat
    memsize := (get32 card (t + 84)).toNat }

/-- `PAGE_SIZE`. -/
def PAGE_SIZE : ℕ := 4096

/-- `NBYTES2PAGE(nbytes)`. -/
def NBYTES2PAGE (nbytes : ℕ) : ℕ := nbytes / PAGE_SIZE + if nbytes % PAGE_SIZE ≠ 0 then 1 else 0

/-- The address space of a process. -/
structure Space where
  /-- The pages that are mapped. -/
  mapped : List ℕ
  /-- The bytes at virtual addresses. -/
  mem : ℕ → UInt8

/-- An address in a mapped page. -/
def Space.isMapped (s : Space) (a : ℕ) : Bool := s.mapped.contains (a / PAGE_SIZE * PAGE_SIZE)

/-- `alloc_page_helper(uva, pcb->pgdir, pcb)`, with a free frame: a page of the user half is mapped, with
the bytes that the frame happens to hold. `create_PageNode` asserts that the address is not 0. -/
def alloc_page_helper (uva : ℕ) (s : Space) : Option Space :=
  if uva ≠ 0 ∧ uva < 2 ^ 38 then some { s with mapped := uva :: s.mapped } else none

/-- `bios_sd_read(kva2pa(kva), num_of_blocks, block_id)`, where `kva` is the frame of the mapped page
`uva`; the sectors must fit the page. -/
def bios_sd_read (card : ℕ → UInt8) (uva num_of_blocks block_id : ℕ) (s : Space) : Option Space :=
  if s.isMapped uva ∧ num_of_blocks * SECTOR_SIZE ≤ PAGE_SIZE then
    some { s with mem := memcpy s.mem uva card (block_id * SECTOR_SIZE) (num_of_blocks * SECTOR_SIZE) }
  else none

/-- The first loop of `load_task_img`, for `pagenum` more pages. -/
def loadPages (card : ℕ → UInt8) : ℕ → ℕ → ℕ → ℕ → Space → Option Space
  | 0, _, _, _, s => some s
  | pagenum + 1, uva, sector_num, sector_pointer, s => do
    let s ← alloc_page_helper uva s
    if PAGE_SIZE ≤ sector_num * SECTOR_SIZE % 2 ^ 32 then do
      let s ← bios_sd_read card uva (PAGE_SIZE / SECTOR_SIZE) sector_pointer s
      loadPages card pagenum (uva + 0x1000) (sector_num - PAGE_SIZE / SECTOR_SIZE)
        (sector_pointer + PAGE_SIZE / SECTOR_SIZE) s
    else if 0 < sector_num then do
      let s ← bios_sd_read card uva sector_num sector_pointer s
      loadPages card pagenum (uva + 0x1000) 0 sector_pointer s
    else loadPages card pagenum (uva + 0x1000) sector_num sector_pointer s

/-- `my_memcpy(dest, src, len, pcb)`, on mapped pages only. -/
def my_memcpy (dest src : ℕ) : ℕ → Space → Option Space
  | 0, s => some s
  | len + 1, s =>
    if s.isMapped dest ∧ s.isMapped src then
      my_memcpy (dest + 1) (src + 1) len { s with mem := Function.update s.mem dest (s.mem src) }
    else none

/-- `load_task_img(pcb, task)`. -/
def load_task_img (card : ℕ → UInt8) (task : TaskInfo) (s : Space) : Option Space := do
  let pagenum := NBYTES2PAGE ((task.memsize + SECTOR_SIZE) % 2 ^ 32)
  let s ← loadPages card pagenum task.entrypoint task.sector_num task.firstsector s
  my_memcpy task.entrypoint (task.entrypoint + task.offset) ((SECTOR_SIZE * task.sector_num - task.offset) % 2 ^ 32) s

end OsLab.Image
