import OsLab.Fs.ReadBack

/-!
# Printing a file

`do_cat` prints the first 200 bytes of a file, or all of them. Unlike `do_read` it looks at the size of the
file and needs no descriptor, and it leaves the volume as it is, the time of the last access included.
-/

namespace OsLab

open Lib ProgM Bytes

namespace Fs

/-- The loop of `do_cat`, for `i` and what follows: the characters passed to `printk`. -/
def catLoop (I : Inode) : ℕ → ℕ → FsM (List UInt8)
  | 0, _ => pure []
  | n + 1, i => do
    ifThen (i % BLOCK_SIZE = 0) do
      let sec ← blockid2sector (i / BLOCK_SIZE) I
      bread .rdata_buffer BLOCK_SECTORS sec.toNat
    let c ← rbyte (i % BLOCK_SIZE)
    let cs ← catLoop I n (i + 1)
    pure (c :: cs)

/-- `do_cat`: the value returned and the characters of the file that are printed. -/
def do_cat (path : CString) : FsM (ℤ × List UInt8) := do
  match ← findFromWd path with
  | none => pure (-1, [])
  | some p => do
    let I ← deref p
    if I.type = IT_DIR then pure (-1, [])
    else do
      let cs ← catLoop I (if I.size > 200 then 200 else I.size).toNat 0
      pure (0, cs)

end Fs

variable {V : View} {U : Vol} {f : ℕ}

end OsLab
