import Mathlib.Algebra.Order.BigOperators.Group.List
import OsLab.Image.Load

/-!
# What the builder writes

The image is the boot sector, the kernel, room for the table of tasks (`head_spec`), and then the contents of the
tasks one after the other (`addTasks_img`). `write_img_info` fills in the table and a few words of the boot sector.
-/

namespace OsLab.Image

open Lib

variable {f : Elf} {b : Build} {T : ℕ}

/-! ### One file -/

/-- The contents of the loadable segments among `ps`. -/
def Elf.contentsOf (f : Elf) (ps : List Phdr) : List UInt8 := (ps.filter fun p => p.p_type = PT_LOAD).flatMap f.segment

theorem length_segment (f : Elf) (p : Phdr) : (f.segment p).length = p.p_filesz := by
  simp [Elf.segment, bytes]

theorem write_segment_spec {p : Phdr} (hp : p.p_type = PT_LOAD) (hseg : p.p_filesz ≤ p.p_memsz) :
    (write_segment f p b).img = b.img ++ f.segment p ∧ (write_segment f p b).phyaddr = b.phyaddr + p.p_filesz ∧
      (write_segment f p b).taskinfo = b.taskinfo ∧ (write_segment f p b).nbytes_kernel = b.nbytes_kernel := by
  by_cases hm : p.p_memsz = 0
  · have hz : p.p_filesz = 0 := by omega
    rw [write_segment, if_neg fun h => h.1 hm, List.eq_nil_of_length_eq_zero ((length_segment f p).trans hz), hz]
    simp
  · rw [write_segment, if_pos ⟨hm, hp⟩]
    exact ⟨rfl, rfl, rfl, rfl⟩

theorem addPhdr_spec {p : Phdr} (hp : p.p_type = PT_LOAD) (hseg : p.p_filesz ≤ p.p_memsz) :
    (addPhdr f T b p).img = b.img ++ f.segment p ∧ (addPhdr f T b p).phyaddr = b.phyaddr + p.p_filesz ∧
      (addPhdr f T b p).taskinfo = b.taskinfo ∧ (addPhdr f T b p).nbytes_kernel ≤ b.nbytes_kernel + p.p_filesz ∧
      (f.name ≠ mainName → (addPhdr f T b p).nbytes_kernel = b.nbytes_kernel) := by
  obtain ⟨h1, h2, h3, h4⟩ := write_segment_spec (f := f) (b := b) hp hseg
  have hmod := Nat.mod_le p.p_filesz (2 ^ 32)
  rw [addPhdr, if_neg (not_not.mpr hp)]
  dsimp only
  split
  · next hn => exact ⟨h1, h2, h3, by dsimp only; omega, fun hne => absurd hn hne⟩
  · split
    · exact ⟨h1, h2, h3, by dsimp only; omega, fun _ => h4⟩
    · exact ⟨h1, h2, h3, by dsimp only; omega, fun _ => h4⟩

/-- The loop over the program headers appends the contents of the file. -/
theorem foldl_addPhdr (ps : List Phdr) (hseg : ∀ p ∈ ps, p.p_type = PT_LOAD → p.p_filesz ≤ p.p_memsz) (b : Build) :
    (ps.foldl (addPhdr f T) b).img = b.img ++ f.contentsOf ps ∧
      (ps.foldl (addPhdr f T) b).phyaddr = b.phyaddr + (f.contentsOf ps).length ∧
      (ps.foldl (addPhdr f T) b).taskinfo = b.taskinfo ∧
      (ps.foldl (addPhdr f T) b).nbytes_kernel ≤ b.nbytes_kernel + (f.contentsOf ps).length ∧
      (f.name ≠ mainName → (ps.foldl (addPhdr f T) b).nbytes_kernel = b.nbytes_kernel) := by
  induction ps generalizing b with
  | nil => simp [Elf.contentsOf]
  | cons p ps ih =>
    have hrest := fun b => ih (fun q hq => hseg q (List.mem_cons_of_mem _ hq)) b
    by_cases hp : p.p_type = PT_LOAD
    · obtain ⟨h1, h2, h3, h4, h5⟩ := hrest (addPhdr f T b p)
      obtain ⟨g1, g2, g3, g4, g5⟩ := addPhdr_spec (f := f) (b := b) (T := T) hp (hseg p (List.mem_cons_self ..) hp)
      have hc : f.contentsOf (p :: ps) = f.segment p ++ f.contentsOf ps := by simp [Elf.contentsOf, hp]
      rw [List.foldl_cons, hc, List.length_append, length_segment]
      refine ⟨by rw [h1, g1, List.append_assoc], by omega, h3.trans g3, by omega, fun hne => (h5 hne).trans (g5 hne)⟩
    · have hc : f.contentsOf (p :: ps) = f.contentsOf ps := by simp [Elf.contentsOf, hp]
      rw [List.foldl_cons, hc, addPhdr, if_pos hp]
      exact hrest b

/-! ### The tasks -/

/-- A task that is not taken for the kernel. -/
structure IsTask (f : Elf) : Prop where
  name : f.name ≠ mainName
  seg : ∀ p ∈ f.loads, p.p_filesz ≤ p.p_memsz
  mem : f.memsize < 2 ^ 31 - 512

/-- The entries of the table, for tasks that start at byte `start`. -/
def infos (start : ℕ) : List Elf → List TaskInfo
  | [] => []
  | f :: fs => infoAt f start f.contents.length :: infos (start + f.contents.length) fs

theorem le_sum_memsz {ps : List Phdr} {p : Phdr} (hp : p ∈ ps) : p.p_memsz ≤ (ps.map Phdr.p_memsz).sum :=
  List.single_le_sum (fun _ _ => Nat.zero_le _) _ (List.mem_map_of_mem hp)

/-- The sizes of the segments are small numbers. -/
theorem sum_memsz_mod (hf : IsTask f) : (f.loads.map fun p => p.p_memsz % 2 ^ 32).sum % 2 ^ 32 = f.memsize := by
  have hmap : f.loads.map (fun p => p.p_memsz % 2 ^ 32) = f.loads.map Phdr.p_memsz := by
    refine List.map_congr_left fun p hp => Nat.mod_eq_of_lt ?_
    have h1 := le_sum_memsz hp
    have h2 := hf.mem
    rw [Elf.memsize] at h2
    omega
  have h2 := hf.mem
  rw [hmap, Nat.mod_eq_of_lt]
  · rfl
  · rw [Elf.memsize] at h2
    omega

theorem length_contents (f : Elf) : f.contents.length = (f.loads.map Phdr.p_filesz).sum := by
  simp [Elf.contents, List.length_flatMap, length_segment]

theorem length_contents_le (hseg : ∀ p ∈ f.loads, p.p_filesz ≤ p.p_memsz) : f.contents.length ≤ f.memsize := by
  rw [length_contents]
  exact List.sum_le_sum hseg

/-- A state of the builder between two files. -/
def Build.Even (b : Build) : Prop := b.phyaddr = b.img.length

theorem padFile_task (hf : IsTask f) (hb : SECTOR_SIZE ≤ b.phyaddr) : padFile f T b = b := by
  rw [padFile]
  split
  · rw [write_padding, Nat.sub_eq_zero_of_le hb, max_eq_left hb]
    simp
  · rw [if_neg hf.name]

/-- A task is appended to the image. -/
theorem addFile_img (hf : IsTask f) (hb : b.Even) (h512 : 512 ≤ b.img.length) (k : ℕ) :
    (addFile T b f k).img = b.img ++ f.contents ∧ (addFile T b f k).Even ∧
    (addFile T b f k).nbytes_kernel = b.nbytes_kernel := by
  obtain ⟨h1, h2, -, -, h5⟩ := foldl_addPhdr (f := f) (T := T) f.phdrs
    (fun p hp hl => hf.seg p (List.mem_filter.mpr ⟨hp, by simpa using hl⟩)) b
  have hphy : (f.phdrs.foldl (addPhdr f T) b).phyaddr = b.img.length + f.contents.length := by rw [h2, hb]; rfl
  have heven : (b.img ++ f.contents).length = (f.phdrs.foldl (addPhdr f T) b).phyaddr := by
    rw [hphy, List.length_append]
  rw [addFile]
  simp only [padFile_task hf (show SECTOR_SIZE ≤ (f.phdrs.foldl (addPhdr f T) b).phyaddr by rw [SECTOR_SIZE]; omega)]
  split
  · exact ⟨h1, heven.symm.trans (congrArg List.length h1.symm), h5 hf.name⟩
  · exact ⟨h1, heven.symm.trans (congrArg List.length h1.symm), h5 hf.name⟩

/-- And gets an entry of the table. -/
theorem addFile_info (hf : IsTask f) (hb : b.Even) (h512 : 512 ≤ b.img.length)
    (hsize : b.img.length + f.contents.length < 2 ^ 31) {k : ℕ}
    (hk : 2 ≤ k) : (addFile T b f k).taskinfo = b.taskinfo ++ [infoAt f b.img.length f.contents.length] := by
  obtain ⟨-, h2, h3, -, -⟩ := foldl_addPhdr (f := f) (T := T) f.phdrs
    (fun p hp hl => hf.seg p (List.mem_filter.mpr ⟨hp, by simpa using hl⟩)) b
  have hphy : (f.phdrs.foldl (addPhdr f T) b).phyaddr = b.img.length + f.contents.length := by rw [h2, hb]; rfl
  have hinfo :
      (⟨f.name, f.e_entry,
        (ROUND (b.img.length + f.contents.length) - ROUNDDOWN b.img.length) / SECTOR_SIZE % 2 ^ 32,
      b.img.length / SECTOR_SIZE % 2 ^ 32, b.img.length % SECTOR_SIZE,
      (f.loads.map fun p => p.p_memsz % 2 ^ 32).sum % 2 ^ 32⟩ : TaskInfo) =
      infoAt f b.img.length f.contents.length := by
    rw [sum_memsz_mod hf, infoAt, Nat.mod_eq_of_lt, Nat.mod_eq_of_lt]
    · simp only [SECTOR_SIZE]
      omega
    · simp only [ROUND, ROUNDDOWN, SECTOR_SIZE]
      omega
  rw [addFile]
  simp only [padFile_task hf (show SECTOR_SIZE ≤ (f.phdrs.foldl (addPhdr f T) b).phyaddr by rw [SECTOR_SIZE]; omega),
    if_pos hk]
  rw [h3, ← hinfo, hphy, hb]

/-- All the tasks, from file number `k` on. -/
def addTasks (T k : ℕ) (fs : List Elf) (b : Build) : Build := (fs.zipIdx k).foldl (fun b f => addFile T b f.1 f.2) b

theorem addTasks_img (fs : List Elf) (hfs : ∀ f ∈ fs, IsTask f)
    (b : Build) (k : ℕ) (hb : b.Even) (h512 : 512 ≤ b.img.length) :
    (addTasks T k fs b).img = b.img ++ fs.flatMap Elf.contents ∧
    (addTasks T k fs b).nbytes_kernel = b.nbytes_kernel := by
  induction fs generalizing b k with
  | nil => simp [addTasks]
  | cons f fs ih =>
    obtain ⟨h1, h2, h3⟩ := addFile_img (T := T) (hfs f (List.mem_cons_self ..)) hb h512 k
    obtain ⟨g1, g2⟩ := ih (fun g hg => hfs g (List.mem_cons_of_mem _ hg))
      (addFile T b f k) (k + 1) h2 (by rw [h1, List.length_append]; omega)
    refine ⟨g1.trans ?_, g2.trans h3⟩
    rw [h1, List.flatMap_cons, List.append_assoc]

theorem addTasks_info (fs : List Elf) (hfs : ∀ f ∈ fs, IsTask f) (b : Build)
    (k : ℕ) (hk : 2 ≤ k) (hb : b.Even) (h512 : 512 ≤ b.img.length)
    (hsize : b.img.length + (fs.flatMap Elf.contents).length < 2 ^ 31) :
    (addTasks T k fs b).taskinfo = b.taskinfo ++ infos b.img.length fs := by
  induction fs generalizing b k with
  | nil => simp [infos, addTasks]
  | cons f fs ih =>
    have hf := hfs f (List.mem_cons_self ..)
    rw [List.flatMap_cons, List.length_append] at hsize
    obtain ⟨h1, h2, -⟩ := addFile_img (T := T) hf hb h512 k
    refine (ih (fun g hg => hfs g (List.mem_cons_of_mem _ hg)) (addFile T b f k) (k + 1) (by omega) h2
      (by rw [h1, List.length_append]; omega) (by rw [h1, List.length_append]; omega)).trans ?_
    rw [addFile_info hf hb h512 (by omega) hk, h1, List.length_append, infos, List.append_assoc, List.singleton_append]

/-- The entry of task `i`, and where its contents are. -/
theorem infos_getElem? (fs : List Elf) (start i : ℕ) (hi : fs[i]? = some f) :
    (infos start fs)[i]? = some (infoAt f (start + ((fs.take i).flatMap Elf.contents).length) f.contents.length) ∧
      ∀ j, j < f.contents.length →
      (fs.flatMap Elf.contents)[((fs.take i).flatMap Elf.contents).length + j]? = f.contents[j]? := by
  induction fs generalizing start i with
  | nil => cases hi
  | cons g fs ih =>
    cases i with
    | zero =>
      obtain rfl : g = f := by simpa using hi
      refine ⟨rfl, fun j hj => ?_⟩
      rw [List.take_zero, List.flatMap_nil, List.length_nil,
        Nat.zero_add, List.flatMap_cons, List.getElem?_append_left hj]
    | succ i =>
      obtain ⟨h1, h2⟩ := ih (start + g.contents.length) i (by simpa using hi)
      refine ⟨?_, fun j hj => ?_⟩
      · rw [infos, List.getElem?_cons_succ, h1, List.take_succ_cons,
          List.flatMap_cons, List.length_append, Nat.add_assoc]
      · rw [List.take_succ_cons, List.flatMap_cons, List.flatMap_cons, List.length_append, Nat.add_assoc,
          List.getElem?_append_right (Nat.le_add_right ..), Nat.add_sub_cancel_left, h2 j hj]

/-! ### In front of the tasks -/

/-- The input of `create_image`: the boot block, the kernel and the tasks. -/
structure Input where
  boot : Elf
  kernel : Elf
  tasks : List Elf
  boot_name : boot.name = bootblockName
  kernel_name : kernel.name = mainName
  tasknum : tasks.length ≤ TASK_MAXNUM
  name : ∀ f ∈ tasks, f.name.length < MAX_NAME_LEN
  boot_size : boot.contents.length ≤ SECTOR_SIZE
  seg : ∀ f ∈ boot :: kernel :: tasks, ∀ p ∈ f.loads, p.p_filesz ≤ p.p_memsz
  mem : ∀ f ∈ tasks, f.memsize < 2 ^ 31 - 512
  entry : ∀ f ∈ tasks, PAGE_SIZE ∣ f.e_entry
  size : (create_image (boot :: kernel :: tasks)).1.length < 2 ^ 31

/-- The files in the order of the command line. -/
def Input.files (x : Input) : List Elf := x.boot :: x.kernel :: x.tasks

/-- The builder after the boot block and the kernel. -/
def Input.head (x : Input) : Build :=
  addFile (x.tasks.length * TaskInfo.size) (addFile (x.tasks.length * TaskInfo.size) {} x.boot 0) x.kernel 1

theorem create_image_eq (x : Input) : create_image x.files =
    (write_img_info (addTasks (x.tasks.length * TaskInfo.size) 2 x.tasks x.head) x.tasks.length,
      (addTasks (x.tasks.length * TaskInfo.size) 2 x.tasks x.head).taskinfo) := rfl

/-- Behind the kernel there is room for the table. -/
theorem head_spec (x : Input) : x.head.Even ∧ x.head.taskinfo = [] ∧
    x.head.nbytes_kernel + SECTOR_SIZE + x.tasks.length * TaskInfo.size ≤ x.head.img.length ∧
    512 ≤ x.head.img.length := by
  obtain ⟨h1, h2, h3, -, h5⟩ := foldl_addPhdr (f := x.boot) (T := x.tasks.length * TaskInfo.size) x.boot.phdrs
    (fun p hp hl => x.seg x.boot (by simp) p (List.mem_filter.mpr ⟨hp, by simpa using hl⟩)) {}
  generalize hb : x.boot.phdrs.foldl (addPhdr x.boot (x.tasks.length * TaskInfo.size)) {} = b at h1 h2 h3 h5
  have hlen : (x.boot.contentsOf x.boot.phdrs).length ≤ SECTOR_SIZE := x.boot_size
  have hpad : addFile (x.tasks.length * TaskInfo.size) {} x.boot 0 = write_padding SECTOR_SIZE b := by
    simp [addFile, hb, padFile, x.boot_name]
  obtain ⟨g1, g2, g3, g4, -⟩ := foldl_addPhdr (f := x.kernel) (T := x.tasks.length * TaskInfo.size) x.kernel.phdrs
    (fun p hp hl => x.seg x.kernel (by simp) p (List.mem_filter.mpr ⟨hp, by simpa using hl⟩))
    (write_padding SECTOR_SIZE b)
  generalize hk : x.kernel.phdrs.foldl (addPhdr x.kernel (x.tasks.length * TaskInfo.size))
    (write_padding SECTOR_SIZE b) = c at g1 g2 g3 g4
  have hhead : x.head = write_padding (c.phyaddr + x.tasks.length * TaskInfo.size) c := by
    have hne : ¬ mainName = bootblockName := by decide
    rw [Input.head, hpad]
    simp [addFile, hk, padFile, x.kernel_name, hne]
  have hk0 : b.nbytes_kernel = 0 := h5 (by rw [x.boot_name]; decide)
  have hbl : b.img.length = b.phyaddr := by rw [h1, h2]; simp
  have hb512 : b.phyaddr ≤ SECTOR_SIZE := by rw [h2]; simpa using hlen
  have hcl : c.img.length = c.phyaddr := by
    rw [g1, g2, List.length_append, write_padding, List.length_append, List.length_replicate, hbl, max_eq_right hb512]
    dsimp only
    omega
  have hc : c.phyaddr = SECTOR_SIZE + (x.kernel.contentsOf x.kernel.phdrs).length := by
    rw [g2, write_padding, max_eq_right hb512]
  have hcn : c.nbytes_kernel ≤ (x.kernel.contentsOf x.kernel.phdrs).length := by
    have : (write_padding SECTOR_SIZE b).nbytes_kernel = 0 := hk0
    omega
  rw [hhead]
  refine ⟨?_, ?_, ?_, ?_⟩
  · simp only [Build.Even, write_padding, List.length_append, List.length_replicate, hcl]
    omega
  · exact g3.trans h3
  · simp only [write_padding, List.length_append, List.length_replicate, hcl]
    omega
  · simp only [write_padding, List.length_append, List.length_replicate, hcl, SECTOR_SIZE] at hc ⊢
    omega

/-! ### The table and the boot sector -/

theorem length_overwrite {img bs : List UInt8} {pos : ℕ} (h : pos + bs.length ≤ img.length) :
    (overwrite img pos bs).length = img.length := by
  simp only [overwrite, List.length_append, List.length_take, List.length_drop]
  omega

theorem le_length_overwrite (img bs : List UInt8) (pos : ℕ) : img.length ≤ (overwrite img pos bs).length := by
  simp only [overwrite, List.length_append, List.length_take, List.length_drop]
  omega

/-- `write_img_info` does not shorten the image. -/
theorem le_length_write_img_info (b : Build) (n : ℕ) : b.img.length ≤ (write_img_info b n).length :=
  (((((le_length_overwrite ..).trans (le_length_overwrite ..)).trans (le_length_overwrite ..)).trans
    (le_length_overwrite ..)).trans
    (le_length_overwrite ..))

/-- What is in an image after bytes of it have been overwritten. -/
theorem overwrite_getElem? {img bs : List UInt8} {pos j : ℕ} (h : pos + bs.length ≤ img.length) :
    (overwrite img pos bs)[j]? = if pos ≤ j ∧ j < pos + bs.length then bs[j - pos]? else img[j]? := by
  have htake : (img.take pos).length = pos := by
    rw [List.length_take]
    omega
  have hlen : (img.take pos ++ bs).length = pos + bs.length := by rw [List.length_append, htake]
  rw [overwrite]
  by_cases hj : j < pos + bs.length
  · rw [List.getElem?_append_left (by omega)]
    by_cases hpos : j < pos
    · rw [if_neg (by omega), List.getElem?_append_left (by omega), List.getElem?_take_of_lt hpos]
    · rw [if_pos (by omega), List.getElem?_append_right (by omega), htake]
  · rw [if_neg (by omega), List.getElem?_append_right (by omega),
      hlen, List.getElem?_drop, Nat.add_sub_cancel' (by omega)]

theorem length_word (n v : ℕ) : (word n v).length = n := by simp [word]

theorem word_getElem? {n v j : ℕ} (hj : j < n) : (word n v)[j]? = some (byte v j) := by
  rw [word, List.getElem?_map, List.getElem?_range hj, Option.map_some]

theorem length_infoBytes {t : TaskInfo} (h : t.taskname.length < MAX_NAME_LEN) : t.bytes.length = TaskInfo.size := by
  simp only [MAX_NAME_LEN] at h
  simp only [TaskInfo.bytes, List.length_append, List.length_replicate, length_word, MAX_NAME_LEN, TaskInfo.size]
  omega

theorem length_infosBytes {fs : List Elf} (h : ∀ f ∈ fs, f.name.length < MAX_NAME_LEN) (start : ℕ) :
    ((infos start fs).flatMap TaskInfo.bytes).length = fs.length * TaskInfo.size := by
  induction fs generalizing start with
  | nil => rfl
  | cons f fs ih =>
    rw [infos, List.flatMap_cons, List.length_append, ih fun g hg => h g (List.mem_cons_of_mem _ hg), List.length_cons,
      length_infoBytes (t := infoAt f start _) (h f (List.mem_cons_self ..))]
    ring

/-- Words of the boot sector. -/
theorem length_overwrite_boot {img bs : List UInt8} {n pos : ℕ}
    (hl : img.length = n) (h512 : 512 ≤ n) (hp : pos + bs.length ≤ 512) :
    (overwrite img pos bs).length = n := (length_overwrite (by omega)).trans hl

/-- Behind the boot sector, `write_img_info` only writes the table. -/
theorem write_img_info_getElem? {b : Build} {n j : ℕ}
    (ht : b.nbytes_kernel + SECTOR_SIZE + (b.taskinfo.flatMap TaskInfo.bytes).length ≤ b.img.length)
    (h512 : 512 ≤ b.img.length) (hj : 512 ≤ j) :
    (write_img_info b n)[j]? =
    (overwrite b.img (b.nbytes_kernel + SECTOR_SIZE) (b.taskinfo.flatMap TaskInfo.bytes))[j]? := by
  have hw : ∀ (img : List UInt8) (pos : ℕ) (bs : List UInt8), img.length = b.img.length → pos + bs.length ≤ 512 →
      (overwrite img pos bs).length = b.img.length ∧ (overwrite img pos bs)[j]? = img[j]? := by
    intro img pos bs hl hp
    exact ⟨length_overwrite_boot hl h512 hp, (overwrite_getElem? (by omega)).trans (if_neg (by omega))⟩
  obtain ⟨h2, g2⟩ := hw _ 0x1fc (word 2 (NBYTES2SEC (b.nbytes_kernel + TaskInfo.size * n)))
    (length_overwrite ht) (by simp [length_word])
  obtain ⟨h3, g3⟩ := hw _ 0x1f6 (word 2 n ++ word 4 b.nbytes_kernel) h2 (by simp [length_word])
  obtain ⟨h4, g4⟩ := hw _ 0x1f4 (word 2 0) h3 (by simp [length_word])
  exact (hw _ 0x1f2 (word 2 (NBYTES2SEC b.nbytes_image)) h4 (by simp [length_word])).2.trans (g4.trans (g3.trans g2))

/-- The word at `taskinfo_offset_loc` says where the table is. -/
theorem write_img_info_offset {b : Build} {n j : ℕ}
    (ht : b.nbytes_kernel + SECTOR_SIZE + (b.taskinfo.flatMap TaskInfo.bytes).length ≤ b.img.length)
    (h512 : 512 ≤ b.img.length) (hj : j < 4) :
    (write_img_info b n)[0x1f8 + j]? = some (byte b.nbytes_kernel j) := by
  have hword : (word 2 n ++ word 4 b.nbytes_kernel).length = 6 := by rw [List.length_append, length_word, length_word]
  have h2 : (overwrite (overwrite b.img (b.nbytes_kernel + SECTOR_SIZE) (b.taskinfo.flatMap TaskInfo.bytes)) 0x1fc
      (word 2 (NBYTES2SEC (b.nbytes_kernel + TaskInfo.size * n)))).length = b.img.length :=
    length_overwrite_boot (length_overwrite ht) h512 (by rw [length_word]; decide)
  rw [write_img_info]
  generalize overwrite (overwrite b.img (b.nbytes_kernel + SECTOR_SIZE) (b.taskinfo.flatMap TaskInfo.bytes)) 0x1fc
    (word 2 (NBYTES2SEC (b.nbytes_kernel + TaskInfo.size * n))) = img at h2
  have h3 : (overwrite img 0x1f6 (word 2 n ++ word 4 b.nbytes_kernel)).length = b.img.length :=
    length_overwrite_boot h2 h512 (by rw [hword]; omega)
  have h4 : (overwrite (overwrite img 0x1f6 (word 2 n ++ word 4 b.nbytes_kernel)) 0x1f4 (word 2 0)).length =
      b.img.length :=
    length_overwrite_boot h3 h512 (by rw [length_word]; omega)
  have hidx : 0x1f8 + j - 0x1f6 - 2 = j := by omega
  rw [overwrite_getElem? (by rw [length_word]; omega),
    if_neg (by rw [length_word]; omega), overwrite_getElem? (by rw [length_word]; omega),
    if_neg (by rw [length_word]; omega), overwrite_getElem? (by rw [hword]; omega), if_pos (by rw [hword]; omega),
    List.getElem?_append_right (by rw [length_word]; omega), length_word, hidx, word_getElem? hj]

end OsLab.Image
