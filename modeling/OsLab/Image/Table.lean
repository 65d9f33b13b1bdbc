import Mathlib.Tactic.IntervalCases
import OsLab.Image.Build

/-!
# The table on the card, and the round trip

`load_task_img` takes the entry of a task from the table that `head.S` finds on the card. What is proved is about
the bytes: the entry is read back from the image (`tasks_eq`), and the loader that is given it leaves the
contents of the task at its entry point (`loadsBack_of_names`).
-/

namespace OsLab.Image

open Lib

variable {card : ℕ → UInt8} {o : ℕ} {as bs : List UInt8}

/-! ### Bytes on the card -/

/-- The card has these bytes from `o` on. -/
def Holds (card : ℕ → UInt8) (o : ℕ) (bs : List UInt8) : Prop := ∀ j c, bs[j]? = some c → card (o + j) = c

theorem Holds.append_left (h : Holds card o (as ++ bs)) : Holds card o as := by
  intro j c hc
  obtain ⟨hj, -⟩ := List.getElem?_eq_some_iff.mp hc
  exact h j c ((List.getElem?_append_left hj).trans hc)

theorem Holds.append_right (h : Holds card o (as ++ bs)) : Holds card (o + as.length) bs := by
  intro j c hc
  rw [Nat.add_assoc]
  refine h _ c ?_
  rwa [List.getElem?_append_right (Nat.le_add_right ..), Nat.add_sub_cancel_left]

/-- Entries of one size lie at the multiples of that size. -/
theorem Holds.flatMap {α : Type*} {l : List α} {g : α → List UInt8} {n i : ℕ} {x : α} (hlen : ∀ y ∈ l, (g y).length = n)
    (h : Holds card o (l.flatMap g)) (hi : l[i]? = some x) : Holds card (o + n * i) (g x) := by
  induction l generalizing o i with
  | nil => cases hi
  | cons y l ih =>
    rw [List.flatMap_cons] at h
    cases i with
    | zero =>
      obtain rfl : y = x := by simpa using hi
      exact h.append_left
    | succ i =>
      have hrest := h.append_right
      rw [hlen y (List.mem_cons_self ..)] at hrest
      have := ih (fun z hz => hlen z (List.mem_cons_of_mem _ hz)) hrest (by simpa using hi)
      rwa [Nat.add_assoc, Nat.add_comm n, ← Nat.mul_succ] at this

/-- A word is read back. -/
theorem Holds.word4 {v : ℕ} (h : Holds card o (word 4 v)) (hv : v < 2 ^ 32) : (get32 card o).toNat = v := by
  have hnat : (UInt32.ofNat v).toNat = v := UInt32.toNat_ofNat_of_lt' hv
  rw [get32_eq (UInt32.ofNat v) fun j hj => by rw [hnat]; exact h j _ (word_getElem? hj), hnat]

theorem byte_mod {v j : ℕ} (hj : j < 4) : byte (v % 2 ^ 32) j = byte v j := by
  apply UInt8.toNat_inj.mp
  rw [toNat_byte, toNat_byte]
  interval_cases j <;> omega

theorem byte_div (v j : ℕ) : byte (v / 2 ^ 32) j = byte v (4 + j) := by
  rw [byte, byte, Nat.pow_add, ← Nat.div_div_eq_div_mul]
  rfl

/-- A long word is two words, the lower one first. -/
theorem word_eight (v : ℕ) : word 8 v = word 4 (v % 2 ^ 32) ++ word 4 (v / 2 ^ 32) := by
  have hlow : (List.range 4).map (byte (v % 2 ^ 32)) = (List.range 4).map (byte v) :=
    List.map_congr_left fun j hj => byte_mod (List.mem_range.mp hj)
  rw [word, word, word, hlow, show 8 = 4 + 4 from rfl, List.range_add, List.map_append, List.map_map]
  exact congrArg _ (List.map_congr_left fun j _ => (byte_div v j).symm)

theorem Holds.word8 {v : ℕ} (h : Holds card o (word 8 v)) (hv : v < 2 ^ 64) : (get64 card o).toNat = v := by
  rw [word_eight] at h
  have hhigh := h.append_right.word4 (by omega)
  rw [length_word] at hhigh
  rw [get64, h.append_left.word4 (Nat.mod_lt _ (by decide)), hhigh,
    UInt64.toNat_ofNat', Nat.mod_add_div, Nat.mod_eq_of_lt hv]

/-! ### Entries -/

/-- The card starts with these bytes. -/
def Starts (card : ℕ → UInt8) (img : List UInt8) : Prop := ∀ j c, img[j]? = some c → card j = c

/-- What fits into a `task_info_t`. -/
structure TaskInfo.Small (t : TaskInfo) : Prop where
  taskname : t.taskname.length < MAX_NAME_LEN
  entrypoint : t.entrypoint < 2 ^ 64
  sector_num : t.sector_num < 2 ^ 32
  firstsector : t.firstsector < 2 ^ 32
  offset : t.offset < 2 ^ 32
  memsize : t.memsize < 2 ^ 32

/-- Where the words of an entry are. -/
theorem Holds.info {t : TaskInfo} (h : Holds card o t.bytes) (hname : t.taskname.length < MAX_NAME_LEN) :
    Holds card (o + 64) (word 8 t.entrypoint) ∧ Holds card (o + 72) (word 4 t.sector_num) ∧
    Holds card (o + 76) (word 4 t.firstsector) ∧
      Holds card (o + 80) (word 4 t.offset) ∧ Holds card (o + 84) (word 4 t.memsize) := by
  have hlen : (t.taskname ++ List.replicate (MAX_NAME_LEN - t.taskname.length) 0).length = 64 := by
    rw [List.length_append, List.length_replicate]
    simp only [MAX_NAME_LEN] at hname ⊢
    omega
  rw [TaskInfo.bytes] at h
  generalize t.taskname ++ List.replicate (MAX_NAME_LEN - t.taskname.length) 0 = name at h hlen
  have hentry := h.append_left.append_left.append_left.append_left.append_right
  have hnum := h.append_left.append_left.append_left.append_right
  have hfirst := h.append_left.append_left.append_right
  have hoffset := h.append_left.append_right
  have hmem := h.append_right
  simp only [List.length_append, hlen, length_word] at hentry hnum hfirst hoffset hmem
  exact ⟨hentry, hnum, hfirst, hoffset, hmem⟩

/-- An entry is read back, but perhaps for the name, which the loader does not look at. -/
theorem tasks_eq {t : TaskInfo} {i off : ℕ} (hoff : Holds card 0x1f8 (word 4 off)) (hlt : off < 2 ^ 32)
    (h : Holds card (off + SECTOR_SIZE + TaskInfo.size * i) t.bytes) (ht : t.Small) :
    ∃ name, tasks card i = { t with taskname := name } := by
  obtain ⟨h1, h2, h3, h4, h5⟩ := h.info ht.taskname
  refine ⟨(tasks card i).taskname, ?_⟩
  unfold tasks
  dsimp only
  rw [hoff.word4 hlt, Nat.add_comm SECTOR_SIZE, h1.word8 ht.entrypoint,
    h2.word4 ht.sector_num, h3.word4 ht.firstsector, h4.word4 ht.offset,
    h5.word4 ht.memsize]

/-- The table, and the word that says where it is, on a card that starts with the image. -/
theorem write_img_info_holds {b : Build} {n : ℕ}
    (ht : b.nbytes_kernel + SECTOR_SIZE + (b.taskinfo.flatMap TaskInfo.bytes).length ≤ b.img.length)
    (h512 : 512 ≤ b.img.length) (hcard : Starts card (write_img_info b n)) :
    Holds card 0x1f8 (word 4 b.nbytes_kernel) ∧
    Holds card (b.nbytes_kernel + SECTOR_SIZE) (b.taskinfo.flatMap TaskInfo.bytes) := by
  constructor
  · intro j c hc
    obtain ⟨hj, -⟩ := List.getElem?_eq_some_iff.mp hc
    rw [length_word] at hj
    refine hcard _ c ?_
    rw [write_img_info_offset ht h512 hj, ← hc, word_getElem? hj]
  · intro j c hc
    obtain ⟨hj, -⟩ := List.getElem?_eq_some_iff.mp hc
    refine hcard _ c ?_
    rw [write_img_info_getElem? ht h512 (by rw [SECTOR_SIZE]; omega),
      overwrite_getElem? ht, if_pos (by omega), Nat.add_sub_cancel_left, hc]

/-! ### The entries of the tasks -/

theorem infoAt_small {f : Elf} {start len : ℕ} (hname : f.name.length < MAX_NAME_LEN) (hmem : f.memsize < 2 ^ 31 - 512)
    (hentry : f.e_entry < 2 ^ 64) (hsize : start + len < 2 ^ 31) : (infoAt f start len).Small := by
  obtain ⟨-, hS⟩ := sector_num_bounds f start len
  refine ⟨hname, hentry, by omega, ?_, ?_, ?_⟩
  · simp only [infoAt, SECTOR_SIZE]
    omega
  · simp only [infoAt, SECTOR_SIZE]
    omega
  · simp only [infoAt]
    omega

theorem length_of_mem_infos {fs : List Elf} (h : ∀ f ∈ fs, f.name.length < MAX_NAME_LEN)
    {start : ℕ} {t : TaskInfo} (ht : t ∈ infos start fs) :
    t.bytes.length = TaskInfo.size := by
  induction fs generalizing start with
  | nil => cases ht
  | cons f fs ih =>
    rcases List.mem_cons.mp ht with rfl | ht
    · exact length_infoBytes (h f (List.mem_cons_self ..))
    · exact ih (fun g hg => h g (List.mem_cons_of_mem _ hg)) ht

/-- The contents of task `i` end inside those of all tasks. -/
theorem length_take_add_le {fs : List Elf} {f : Elf} {i : ℕ} (hi : fs[i]? = some f) :
    ((fs.take i).flatMap Elf.contents).length + f.contents.length ≤ (fs.flatMap Elf.contents).length := by
  obtain ⟨hlt, rfl⟩ := List.getElem?_eq_some_iff.mp hi
  have hsplit : fs.take i ++ fs[i] :: fs.drop (i + 1) = fs := by
    rw [← List.drop_eq_getElem_cons hlt, List.take_append_drop]
  calc ((fs.take i).flatMap Elf.contents).length + fs[i].contents.length
      ≤ ((fs.take i ++ fs[i] :: fs.drop (i + 1)).flatMap Elf.contents).length := by
        rw [List.flatMap_append, List.flatMap_cons, List.length_append, List.length_append]
        omega
    _ = (fs.flatMap Elf.contents).length := by rw [hsplit]

/-! ### Builder and loader -/

/-- The loader, given the entry of a task that is on the card, leaves the contents of the task at its entry point. -/
def LoadsBack (x : Input) : Prop :=
  ∀ (i : ℕ) (f : Elf), x.tasks[i]? = some f → ∀ card, Starts card (create_image x.files).1 →
    ∀ s, ∃ s', load_task_img card (tasks card i) s = some s' ∧ ∀ j c,
    f.contents[j]? = some c → s'.mem (f.e_entry + j) = c

/-- The pages of every task lie in the user half, and page 0 is not among them. -/
def Input.Fits (x : Input) : Prop := ∀ f ∈ x.tasks, f.e_entry ≠ 0 ∧ f.e_entry + PAGE_SIZE * f.pages ≤ 2 ^ 38

/-- Where the contents of task `i` are, and its entry as it is on the card. -/
theorem create_image_task (x : Input) (hname : ∀ f ∈ x.tasks, f.name ≠ mainName)
    (hfit : x.Fits) {f : Elf} {i : ℕ} (hi : x.tasks[i]? = some f)
    (hcard : Starts card (create_image x.files).1) :
    ∃ start name, tasks card i = { infoAt f start f.contents.length with taskname := name } ∧
      ∀ j, j < f.contents.length → (create_image x.files).1[start + j]? = f.contents[j]? := by
  obtain ⟨heven, hinfo, hroom, h512⟩ := head_spec x
  have hf : f ∈ x.tasks := List.mem_of_getElem? hi
  have htask : ∀ f ∈ x.tasks, IsTask f := fun f hf => ⟨hname f hf, x.seg f (by simp [hf]), x.mem f hf⟩
  obtain ⟨h1, h3⟩ := addTasks_img (T := x.tasks.length * TaskInfo.size) x.tasks htask x.head 2 heven h512
  have hsize : x.head.img.length + (x.tasks.flatMap Elf.contents).length < 2 ^ 31 := by
    rw [← List.length_append, ← h1]
    exact lt_of_le_of_lt (le_length_write_img_info _ _) x.size
  have h2 := addTasks_info (T := x.tasks.length * TaskInfo.size) x.tasks htask x.head 2 (Nat.le_refl 2) heven h512 hsize
  rw [hinfo, List.nil_append] at h2
  obtain ⟨g1, g2⟩ := infos_getElem? x.tasks x.head.img.length i hi
  have hlen := length_take_add_le hi
  rw [create_image_eq] at hcard ⊢
  generalize addTasks (x.tasks.length * TaskInfo.size) 2 x.tasks x.head = b at h1 h2 h3 hcard ⊢
  have htable : (b.taskinfo.flatMap TaskInfo.bytes).length = x.tasks.length * TaskInfo.size := by
    rw [h2, length_infosBytes x.name]
  have hb512 : 512 ≤ b.img.length := by rw [h1, List.length_append]; omega
  have hbroom : b.nbytes_kernel + SECTOR_SIZE + (b.taskinfo.flatMap TaskInfo.bytes).length ≤ b.img.length := by
    rw [htable, h3, h1, List.length_append]
    exact hroom.trans (Nat.le_add_right ..)
  generalize ((x.tasks.take i).flatMap Elf.contents).length = before at g1 g2 hlen
  obtain ⟨hoff, hinfos⟩ := write_img_info_holds hbroom hb512 hcard
  rw [h2] at hinfos
  have hentry := hinfos.flatMap (fun t ht => length_of_mem_infos x.name ht) g1
  have hpages := pages_le f
  have hhalf := (hfit f hf).2
  simp only [PAGE_SIZE] at hhalf
  obtain ⟨name, hn⟩ := tasks_eq hoff (by omega) hentry (infoAt_small (x.name f hf) (x.mem f hf) (by omega) (by omega))
  refine ⟨x.head.img.length + before, name, hn, fun j hj => ?_⟩
  have hj512 : 512 ≤ x.head.img.length + before + j := by omega
  rw [write_img_info_getElem? hbroom hb512 hj512, overwrite_getElem? hbroom, if_neg, h1, Nat.add_assoc,
    List.getElem?_append_right (Nat.le_add_right ..), Nat.add_sub_cancel_left, g2 j hj]
  rw [htable, h3]
  omega

theorem loadsBack_of_names (x : Input) (hname : ∀ f ∈ x.tasks, f.name ≠ mainName) (hfit : x.Fits) : LoadsBack x := by
  intro i f hi
  have hf : f ∈ x.tasks := List.mem_of_getElem? hi
  intro card hcard s
  obtain ⟨start, name, hinfo, himg⟩ := create_image_task x hname hfit hi hcard
  obtain ⟨s', he, hs'⟩ := load_task_img_spec card f start (x.entry f hf) (x.mem f hf)
    (length_contents_le (x.seg f (by simp [hf]))) (hfit f hf).1 (hfit f hf).2 s
  have hload : load_task_img card (tasks card i) s = some s' := by
    rw [hinfo]
    exact he
  refine ⟨s', hload, fun j c hc => ?_⟩
  obtain ⟨hj, -⟩ := List.getElem?_eq_some_iff.mp hc
  rw [hs' j hj]
  exact hcard _ _ ((himg j hj).trans hc)

/-- A file with one loadable segment of four bytes. -/
def fourBytes (name : FileName) : Elf := ⟨name, 0x10000, [⟨PT_LOAD, 0, 4, 4⟩], fun j => UInt8.ofNat (j + 1)⟩

/-- An empty boot block, a kernel and one task with this name. -/
def filesWith (name : FileName) : List Elf := [⟨bootblockName, 0, [], fun _ => 0⟩, fourBytes mainName, fourBytes name]

/-- These files as an input. -/
def inputWith (name : FileName) (hname : name.length < MAX_NAME_LEN)
    (hsize : (create_image (filesWith name)).1.length < 2 ^ 31) : Input where
  boot := ⟨bootblockName, 0, [], fun _ => 0⟩
  kernel := fourBytes mainName
  tasks := [fourBytes name]
  boot_name := rfl
  kernel_name := rfl
  tasknum := Nat.le_of_ble_eq_true rfl
  name := fun f hf => by
    obtain rfl := List.mem_singleton.mp hf
    exact hname
  boot_size := by decide
  seg := by simp [Elf.loads, fourBytes]
  mem := by simp [Elf.memsize, Elf.loads, fourBytes]
  entry := by simp [fourBytes, PAGE_SIZE]
  size := hsize

/-- A card that holds an image and zeros behind it. -/
def cardOf (img : List UInt8) (j : ℕ) : UInt8 := img[j]?.getD 0

theorem starts_cardOf (img : List UInt8) : Starts (cardOf img) img := fun j c hc => by rw [cardOf, hc]; rfl

/-- The task `sh`. -/
theorem loadsBack_sh : ∃ x : Input, x.tasks = [fourBytes [115, 104]] ∧ LoadsBack x := by
  refine ⟨inputWith [115, 104] (by decide) (by decide +kernel), rfl, loadsBack_of_names _ ?_ ?_⟩
  · intro f hf
    obtain rfl := List.mem_singleton.mp hf
    decide
  · intro f hf
    obtain rfl := List.mem_singleton.mp hf
    decide +kernel

/-- A card with the image of a task that is called `main`. -/
def mainCard : ℕ → UInt8 := cardOf (create_image (filesWith mainName)).1

/-- A task that is called `main`: the table of tasks is written over it. -/
theorem loadsBack_main_fails : ¬ ∀ x : Input, x.Fits → LoadsBack x := by
  intro hall
  have hfit : ∀ hname hsize, (inputWith mainName hname hsize).Fits := by
    intro hname hsize f hf
    obtain rfl := List.mem_singleton.mp hf
    decide +kernel
  have hload : ∀ s, ∃ s', load_task_img mainCard (tasks mainCard 0) s = some s' ∧
      ∀ j c, (fourBytes mainName).contents[j]? = some c → s'.mem (0x10000 + j) = c :=
    hall (inputWith mainName (by decide) (by decide +kernel)) (hfit _ _) 0 _ rfl _ (starts_cardOf _)
  obtain ⟨s', he, hmem⟩ := hload ⟨[], fun _ => 0⟩
  have hval : (load_task_img mainCard (tasks mainCard 0) ⟨[], fun _ => 0⟩).map (fun s => s.mem 0x10000) = some 4 := by
    decide +kernel
  rw [he] at hval
  have h4 : s'.mem 0x10000 = 4 := Option.some.inj hval
  have h1 : s'.mem 0x10000 = 1 := hmem 0 1 (by decide +kernel)
  rw [h4] at h1
  exact absurd h1 (by decide)

end OsLab.Image

