import OsLab.Net.Receive

/-!
# Packets in several pieces

`e1000_poll` on the memory it copies: the device may split a packet over several descriptors, and the loop
goes on to the next one until it finds `EOP`. Every round copies to the start of `rxbuffer`, as many bytes
as all rounds so far have counted, and `mymemcpy` counts them down by eight until nothing is left.
-/

namespace OsLab.Net

open Lib

variable {dest src rxbuffer rxbuffer' : ℕ → UInt8} {len : UInt32}
    {d last : RxDesc} {ds ini : List RxDesc} {fuel n o p : ℕ}

/-- `mymemcpy(&dest[o], &src[o], len)`, for at most `fuel` tests. -/
def mymemcpy (src : ℕ → UInt8) : ℕ → (ℕ → UInt8) → ℕ → UInt32 → Option (ℕ → UInt8)
  | 0, _, _, _ => none
  | fuel + 1, dest, o, len => if len = 0 then some dest else mymemcpy src fuel (memcpy dest o src o 8) (o + 8) (len - 8)

/-- The rounds of `e1000_poll` over the descriptors that it finds filled, one after the other; `buffer` is
the memory from the descriptor's buffer on. After the last descriptor the call sleeps on. -/
def pollLoop (fuel : ℕ) : List RxDesc → ℕ → (ℕ → UInt8) → Option (ℕ × (ℕ → UInt8))
  | [], _, _ => none
  | d :: ds, poll_len, rxbuffer =>
    if d.buffer 14 ≠ 43 then pollLoop fuel ds poll_len rxbuffer
    else
      let poll_len := poll_len + d.length
      -- the sum is an `int`
      if 2 ^ 31 ≤ poll_len then none
      else
        (mymemcpy d.buffer fuel rxbuffer 0 (UInt32.ofNat poll_len)).bind fun rxbuffer =>
          if d.eop then some (poll_len, rxbuffer) else pollLoop fuel ds poll_len rxbuffer

/-- `e1000_poll(rxbuffer)`. -/
def e1000_poll (fuel : ℕ) (ds : List RxDesc) (rxbuffer : ℕ → UInt8) :
    Option (ℕ × (ℕ → UInt8)) := pollLoop fuel ds 0 rxbuffer

/-- The length of a packet in pieces. -/
def total (ds : List RxDesc) : ℕ := (ds.map RxDesc.length).sum

/-- The bytes of a packet in pieces. -/
def content (ds : List RxDesc) : List UInt8 := ds.flatMap RxDesc.packet

/-- The device has split a packet over the descriptors `ini` and `last`. -/
structure Split (ini : List RxDesc) (last : RxDesc) : Prop where
  header : ∀ d ∈ ini ++ [last], d.buffer 14 = 43
  length : ∀ d ∈ ini ++ [last], 1 ≤ d.length ∧ d.length ≤ TX_PKT_SIZE
  more : ∀ d ∈ ini, d.eop = false
  eop : last.eop = true

/-- The call returns the length of the packet, `rxbuffer` begins with the packet, and nothing after it has changed. -/
def Reassembles (ds : List RxDesc) (rxbuffer : ℕ → UInt8) : Prop :=
  ∃ fuel rxbuffer', e1000_poll fuel ds rxbuffer = some (total ds, rxbuffer') ∧ bytes rxbuffer' (total ds) = content ds ∧
    ∀ x, total ds ≤ x → rxbuffer' x = rxbuffer x

/-! ### Copying -/

/-- The rest that is not a multiple of eight never goes away. -/
theorem mymemcpy_ragged (h : len.toNat % 8 ≠ 0) : mymemcpy src fuel dest o len = none := by
  induction fuel generalizing dest o len with
  | zero => rfl
  | succ fuel ih =>
    rw [mymemcpy, if_neg]
    · refine ih ?_
      have hlen := len.toNat_lt
      rw [UInt32.toNat_sub]
      simp only [UInt32.reduceToNat]
      omega
    · rintro rfl
      exact h rfl

theorem memcpy_memcpy (dest src : ℕ → UInt8) (o a b : ℕ) :
    memcpy (memcpy dest o src o a) (o + a) src (o + a) b = memcpy dest o src o (a + b) := by
  funext x
  simp only [memcpy_apply]
  grind

/-- Whole words are copied. -/
theorem mymemcpy_words (hn : 8 * n < 2 ^ 32) (hf : n < fuel) :
    mymemcpy src fuel dest o (UInt32.ofNat (8 * n)) = some (memcpy dest o src o (8 * n)) := by
  induction n generalizing fuel dest o with
  | zero =>
    obtain ⟨fuel, rfl⟩ := Nat.exists_eq_succ_of_ne_zero (by omega : fuel ≠ 0)
    rfl
  | succ n ih =>
    obtain ⟨fuel, rfl⟩ := Nat.exists_eq_succ_of_ne_zero (by omega : fuel ≠ 0)
    have hlen : (UInt32.ofNat (8 * (n + 1))).toNat = 8 * (n + 1) := by
      rw [UInt32.toNat_ofNat', Nat.mod_eq_of_lt hn]
    rw [mymemcpy, if_neg]
    · have hsub : UInt32.ofNat (8 * (n + 1)) - 8 = UInt32.ofNat (8 * n) := by
        apply UInt32.toNat_inj.mp
        rw [UInt32.toNat_sub, hlen, UInt32.toNat_ofNat']
        simp only [UInt32.reduceToNat]
        omega
      rw [hsub, ih (by omega) (by omega), memcpy_memcpy]
      congr 2
      omega
    · intro hz
      rw [hz] at hlen
      simp only [UInt32.reduceToNat] at hlen
      omega

/-- What comes back has been copied in whole words. -/
theorem mymemcpy_some {r : ℕ → UInt8} (h : mymemcpy src fuel dest o len = some r) :
    len.toNat % 8 = 0 ∧ r = memcpy dest o src o len.toNat := by
  have hmod : len.toNat % 8 = 0 := by
    by_contra hne
    rw [mymemcpy_ragged hne] at h
    cases h
  refine ⟨hmod, ?_⟩
  induction fuel generalizing dest o len with
  | zero => cases h
  | succ fuel ih =>
    rw [mymemcpy] at h
    split at h
    · next hz =>
      obtain rfl := Option.some.inj h
      rw [hz]
      rfl
    · next hz =>
      have hpos : len.toNat ≠ 0 := fun e => hz (UInt32.toNat_inj.mp e)
      have hlen := len.toNat_lt
      have hsub : (len - 8).toNat = len.toNat - 8 := by
        rw [UInt32.toNat_sub]
        simp only [UInt32.reduceToNat]
        omega
      rw [ih h (by omega), memcpy_memcpy, hsub]
      congr 1
      omega

theorem toNat_ofNat (hp : p < 2 ^ 31) : (UInt32.ofNat p).toNat = p := by
  rw [UInt32.toNat_ofNat', Nat.mod_eq_of_lt (by omega)]

/-- The rounds in which `pollRound` notes that a task does not come back are those in which `mymemcpy` never ends. -/
theorem pollRound_stuck_iff {r : Receiver} {s : Nic} (hs : s.stuck = false)
    (hd : s.rx_desc_array (r.index.getD (s.RDT + 1)) = d)
    (hdd : d.dd = true) (hh : d.buffer 14 = 43) (hp : r.poll_len + d.length < 2 ^ 31) :
    (pollRound r s).stuck = true ↔
    ∀ fuel, mymemcpy d.buffer fuel rxbuffer 0 (UInt32.ofNat (r.poll_len + d.length)) = none := by
  have hround : (pollRound r s).stuck = true ↔ (r.poll_len + d.length) % 8 ≠ 0 := by
    subst hd
    simp only [pollRound, hdd, hh, Bool.true_eq_false, if_false, ne_eq, not_true_eq_false]
    split
    · next hmod => exact iff_of_true rfl hmod
    · next hmod =>
      refine iff_of_false ?_ hmod
      split
      · exact ne_true_of_eq_false hs
      · exact ne_true_of_eq_false hs
  rw [hround]
  constructor
  · intro hmod fuel
    exact mymemcpy_ragged (by rwa [toNat_ofNat hp])
  · intro hnone hmod
    obtain ⟨n, hn⟩ := Nat.dvd_of_mod_eq_zero hmod
    have hsome : mymemcpy d.buffer (n + 1) rxbuffer 0 (UInt32.ofNat (8 * n)) = _ := mymemcpy_words (by omega) (by omega)
    rw [← hn, hnone] at hsome
    cases hsome

/-- A later copy to the same place hides an earlier one that is not longer. -/
theorem memcpy_over (dest src src' : ℕ → UInt8) {a b : ℕ} (hab : a ≤ b) :
    memcpy (memcpy dest 0 src' 0 a) 0 src 0 b = memcpy dest 0 src 0 b := by
  funext x
  simp only [memcpy_apply]
  grind

/-! ### Rounds -/

theorem total_cons (d : RxDesc) (ds : List RxDesc) : total (d :: ds) = d.length + total ds := by
  simp [total]

namespace Split

theorem one (hh : last.buffer 14 = 43) (hl : 1 ≤ last.length ∧ last.length ≤ TX_PKT_SIZE) (he : last.eop = true) :
    Split [] last := by
  refine ⟨fun d hd => ?_, fun d hd => ?_, fun d hd => absurd hd List.not_mem_nil, he⟩
  · rwa [List.mem_singleton.mp hd]
  · rwa [List.mem_singleton.mp hd]

theorem tail (h : Split (d :: ini) last) : Split ini last :=
  ⟨fun e he => h.header e (List.mem_cons_of_mem _ he), fun e he => h.length e (List.mem_cons_of_mem _ he),
    fun e he => h.more e (List.mem_cons_of_mem _ he), h.eop⟩

/-- A round that finds a piece with its header. -/
theorem pollLoop_cons (hh : d.buffer 14 = 43) (hp : p + d.length < 2 ^ 31) : pollLoop fuel (d :: ds) p rxbuffer =
    (mymemcpy d.buffer fuel rxbuffer 0 (UInt32.ofNat (p + d.length))).bind fun rxbuffer =>
      if d.eop then some (p + d.length, rxbuffer) else pollLoop fuel ds (p + d.length) rxbuffer := by
  rw [pollLoop, if_neg (not_not.mpr hh), if_neg (Nat.not_le.mpr hp)]

/-- A round that comes back. -/
theorem round_some {r : ℕ × (ℕ → UInt8)} (hh : d.buffer 14 = 43)
    (hp : p % 8 = 0) (hr : pollLoop fuel (d :: ds) p rxbuffer = some r) :
    p + d.length < 2 ^ 31 ∧ d.length % 8 = 0 ∧
    (if d.eop then some (p + d.length, memcpy rxbuffer 0 d.buffer 0 (p + d.length))
      else pollLoop fuel ds (p + d.length) (memcpy rxbuffer 0 d.buffer 0 (p + d.length))) = some r := by
  have hlt : p + d.length < 2 ^ 31 := by
    by_contra hge
    rw [pollLoop, if_neg (not_not.mpr hh), if_pos (Nat.not_lt.mp hge)] at hr
    cases hr
  rw [pollLoop_cons hh hlt, Option.bind_eq_some_iff] at hr
  obtain ⟨rx, hcopy, hr⟩ := hr
  obtain ⟨hmod, rfl⟩ := mymemcpy_some hcopy
  rw [toNat_ofNat hlt] at hmod hr
  exact ⟨hlt, by omega, hr⟩

/-- What comes back has been copied word by word, and each round overwrites what the rounds before it have copied. -/
theorem pollLoop_some {r : ℕ × (ℕ → UInt8)} (h : Split ini last) (hp : p % 8 = 0)
    (hr : pollLoop fuel (ini ++ [last]) p rxbuffer = some r) :
    (∀ d ∈ ini ++ [last], d.length % 8 = 0) ∧ p + total (ini ++ [last]) < 2 ^ 31 ∧
      r = (p + total (ini ++ [last]), memcpy rxbuffer 0 last.buffer 0 (p + total (ini ++ [last]))) := by
  induction ini generalizing p rxbuffer with
  | nil =>
    obtain ⟨hlt, hmod, hr⟩ := round_some (h.header last (List.mem_singleton.mpr rfl)) hp hr
    rw [if_pos h.eop] at hr
    refine ⟨fun d hd => ?_, hlt, (Option.some.inj hr).symm⟩
    obtain rfl := List.mem_singleton.mp hd
    exact hmod
  | cons d ini ih =>
    obtain ⟨-, hmod, hr⟩ := round_some (h.header d (List.mem_cons_self ..)) hp hr
    rw [if_neg (by rw [h.more d (List.mem_cons_self ..)]; exact Bool.false_ne_true)] at hr
    obtain ⟨hrest, hlt, rfl⟩ := ih h.tail (by omega) hr
    rw [List.cons_append, total_cons, ← Nat.add_assoc]
    refine ⟨fun e he => ?_, hlt, ?_⟩
    · rcases List.mem_cons.mp he with rfl | he
      · exact hmod
      · exact hrest e he
    · rw [memcpy_over]
      omega

/-- Packets in pieces of whole words come back; each round overwrites what the rounds before it have copied. -/
theorem pollLoop_words (h : Split ini last) (hp : p % 8 = 0) (hd : ∀ d ∈ ini ++ [last], d.length % 8 = 0)
    (ht : p + total (ini ++ [last]) < 2 ^ 31) (hf : p + total (ini ++ [last]) < fuel) :
    pollLoop fuel (ini ++ [last]) p rxbuffer =
      some (p + total (ini ++ [last]), memcpy rxbuffer 0 last.buffer 0 (p + total (ini ++ [last]))) := by
  have hcopy : ∀ {q : ℕ} (b rx : ℕ → UInt8), q % 8 = 0 → q < 2 ^ 31 → q < fuel →
      mymemcpy b fuel rx 0 (UInt32.ofNat q) = some (memcpy rx 0 b 0 q) := by
    intro q b rx hq hlt hfuel
    obtain ⟨n, rfl⟩ := Nat.dvd_of_mod_eq_zero hq
    exact mymemcpy_words (by omega) (by omega)
  induction ini generalizing p rxbuffer with
  | nil =>
    have hmod := hd last (List.mem_singleton.mpr rfl)
    have htotal : total ([] ++ [last]) = last.length := by simp [total]
    rw [htotal] at ht hf ⊢
    rw [List.nil_append, pollLoop_cons (h.header last (List.mem_singleton.mpr rfl)) ht, hcopy _ _ (by omega) ht hf,
      Option.bind_some, if_pos h.eop]
  | cons d ini ih =>
    have hmod := hd d (List.mem_cons_self ..)
    rw [List.cons_append, total_cons] at ht hf ⊢
    rw [pollLoop_cons (h.header d (List.mem_cons_self ..)) (by omega),
      hcopy _ _ (by omega) (by omega) (by omega), Option.bind_some,
      if_neg (by rw [h.more d (List.mem_cons_self ..)]; exact Bool.false_ne_true),
      ih h.tail (by omega) (fun e he => hd e (List.mem_cons_of_mem _ he)) (by omega) (by omega),
      Nat.add_assoc, memcpy_over]
    omega

end Split

/-- A packet is put together exactly when all its pieces are whole words and the buffer of its last piece
begins with the whole packet. -/
theorem reassembles_iff (h : Split ini last) :
    Reassembles (ini ++ [last]) rxbuffer ↔ (∀ d ∈ ini ++ [last], d.length % 8 = 0) ∧
    total (ini ++ [last]) < 2 ^ 31 ∧ bytes last.buffer (total (ini ++ [last])) = content (ini ++ [last]) := by
  have htop : ∀ rx n, bytes last.buffer n = bytes (memcpy rx 0 last.buffer 0 n) n := by
    refine fun rx n => bytes_congr fun x hx => ?_
    rw [memcpy_apply, if_pos (by omega), Nat.zero_add, Nat.sub_zero]
  constructor
  · rintro ⟨fuel, rx, hpoll, hbytes, -⟩
    obtain ⟨hd, ht, hr⟩ := h.pollLoop_some (p := 0) rfl hpoll
    rw [Nat.zero_add] at ht hr
    refine ⟨hd, ht, ?_⟩
    rw [← hbytes, (Prod.mk.inj hr).2]
    exact htop rxbuffer _
  · rintro ⟨hd, ht, hlast⟩
    have hpoll : pollLoop (total (ini ++ [last]) + 1) (ini ++ [last]) 0 rxbuffer = _ :=
      h.pollLoop_words rfl hd (by omega) (by omega)
    rw [Nat.zero_add] at hpoll
    refine ⟨_, _, hpoll, ?_, fun x hx => ?_⟩
    · rw [← hlast]
      exact (htop rxbuffer _).symm
    · rw [memcpy_apply, if_neg (by omega)]

/-- One piece of 64 bytes. -/
theorem reassembles_sixtyFour : Reassembles ([] ++ [⟨64, true, true, fun _ => 43⟩]) fun _ => 0 :=
  (reassembles_iff (.one rfl (by decide) rfl)).mpr ⟨List.forall_mem_singleton.mpr rfl, by decide, by decide⟩

/-- A packet in one piece is put together exactly when it is whole words. -/
theorem reassembles_one (h : Split [] last) : Reassembles [last] rxbuffer ↔ last.length % 8 = 0 := by
  have hlen := (h.length last (List.mem_singleton.mpr rfl)).2
  have htotal : total ([] ++ [last]) = last.length := by simp [total]
  have hcontent : content ([] ++ [last]) = last.packet := by simp [content]
  rw [← List.nil_append [last], reassembles_iff h, htotal, hcontent,
    RxDesc.packet, List.nil_append, List.forall_mem_singleton]
  have hlt : last.length < 2 ^ 31 := by
    rw [TX_PKT_SIZE] at hlen
    omega
  tauto

/-- One piece of 60 bytes is copied without end, and of two pieces of 16 bytes the second is copied over the first. -/
theorem reassembles_fails : (Split [] ⟨60, true, true, fun _ => 43⟩ ∧
    ¬ Reassembles ([] ++ [⟨60, true, true, fun _ => 43⟩]) fun _ => 0) ∧
    Split [⟨16, true, false, fun _ => 43⟩] ⟨16, true, true, fun x => if x = 14 then 43 else 0⟩ ∧
      ¬ Reassembles ([⟨16, true, false, fun _ => 43⟩] ++ [⟨16, true, true, fun x => if x = 14 then 43 else 0⟩])
      fun _ => 0 := by
  have hone : Split [] ⟨60, true, true, fun _ => 43⟩ := .one rfl (by decide) rfl
  have htwo : Split [⟨16, true, false, fun _ => 43⟩] ⟨16, true, true, fun x => if x = 14 then 43 else 0⟩ := by
    refine ⟨?_, ?_, ?_, rfl⟩
    all_goals simp [TX_PKT_SIZE]
  refine ⟨⟨hone, fun h => ?_⟩, htwo, fun h => ?_⟩
  · exact absurd ((reassembles_one hone).mp h) (by decide)
  · exact absurd ((reassembles_iff htwo).mp h).2.2 (by decide)

end OsLab.Net
