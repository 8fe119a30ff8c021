import InodeFs.Ops.Bounds
import InodeFs.Properties.Writing

/-!
# How much `fs_read` reports

`fs_read` copies as many bytes as it is asked for and returns the smaller one of that number and
the size of the file; the offset plays no part. So what it returns is right exactly for reads from
the start of the file and reads that end inside the file, besides reads of nothing and of empty
files.

`readCount` is what is to be returned: the bytes from the offset to the end of the file, at most as
many as were asked for, and nothing from the end on. The equivalence is one of numbers, with the
conversion of the size to an `int` in it: a size from `2 ^ 31` on is negative or small there
(`getMin_eq_readCount_iff`).

The bytes are no problem where they can be addressed. On a sound disk the loop leaves in the buffer
what the file has at its positions (`Sound.run_readLoop`), also at those behind its end, where a
caller does not look; the ranks that an inode can address are the only limit.

A read at the end of a file or behind it is to return 0. The call returns the smaller of the size
asked for and the size of the file, and a reader that goes on until it gets 0 bytes does not come to
an end.
-/

namespace InodeFs

variable (env : Env)

/-- What a read of a file of `n` bytes is to return. -/
def readCount (n size offset : ℕ) : ℕ := if offset < n then min size (n - offset) else 0

/-- What `fs_read` gets right: an empty file, a read of nothing, a read from offset 0 and a read
that ends inside the file. It takes the size as an `int`; where that is another number, it must be
the right one by itself. -/
def CountFits (n size offset : ℕ) : Prop :=
  n = 0 ∨ (cInt size = 0 ∧ (size = 0 ∨ n ≤ offset)) ∨
    (offset = 0 ∧ (cInt size = size ∨ n ≤ cInt size)) ∨
    (offset + cInt size ≤ n ∧ (cInt size = size ∨ offset + cInt size = n))

theorem getMin_eq_readCount_iff {n size : ℕ} (hn : n < 2 ^ 31) (hsize : 0 ≤ cInt size)
    (offset : ℕ) :
    getMin (cInt size) (cInt n) = readCount n size offset ↔ CountFits n size offset := by
  have hle := cInt_le size
  have hbig := cInt_eq_or_le hsize
  rw [cInt_natCast hn, getMin, readCount, CountFits]
  obtain ⟨m, hm⟩ := Int.eq_ofNat_of_zero_le hsize
  rw [hm] at hle hbig ⊢
  split <;> split <;> omega

/-- The bytes the loop of `fs_read` leaves in the buffer. -/
theorem Disk.Sound.run_readLoop {d : Disk} (hd : d.Sound) {i size offset : ℕ} (hi : i < 32768)
    (h : ReadFits size offset) (buffer : ℕ → Byte) : ∃ out,
    (readLoop env (d.inode i) (cInt size) size (cInt (offset / 4096 : ℕ)) (offset % 4096) 0
      buffer).run vdisk d = some (out, d) ∧
    ∀ k : ℕ, (k : ℤ) < cInt size → offset + k < 2146304 → out k = d.byteAt i (offset + k) := by
  have hle := cInt_le size
  obtain ⟨m, hm⟩ := Int.eq_ofNat_of_zero_le h.size_nonneg
  rw [hm] at hle ⊢
  rcases Nat.eq_zero_or_pos m with rfl | hpos
  · refine ⟨buffer, ?_, fun k hk => absurd hk (by omega)⟩
    rw [readLoop_done]
    rfl
  · have hfirst := h.first.resolve_left (by omega)
    have hlast := h.last.resolve_left (by omega)
    obtain ⟨ρ, hρ⟩ := Int.eq_ofNat_of_zero_le hfirst.1
    rw [hρ, hm, RankFits] at hlast
    have hrank : (4096 * ρ + offset % 4096 + 0) / 4096 = ρ := by omega
    have hbias : (4096 * ρ + offset % 4096 + 0) % 4096 = offset % 4096 := by omega
    have hloop := readLoop_eq env (d.inode i) m (4096 * ρ + offset % 4096) size 0 buffer
      (Nat.zero_le _) (by omega)
    rw [hrank, hbias, Nat.add_zero, ranksBetween, if_pos (by omega)] at hloop
    obtain ⟨blocks, hblocks, hat⟩ := hd.run_readRanks env hi
      ((4096 * ρ + offset % 4096 + m - 1) / 4096 - (4096 * ρ + offset % 4096) / 4096 + 1)
      ((4096 * ρ + offset % 4096) / 4096) (by omega)
    refine ⟨_, by rw [hρ, hloop, Prog.run_bind_some _ hblocks]; rfl, fun k hk hpos' => ?_⟩
    -- an offset inside the addressable part is not changed by the conversion
    have hsame : 4096 * ρ + offset % 4096 = offset := by
      rw [cInt_natCast (show offset / 4096 < 2 ^ 31 by omega)] at hρ
      omega
    have hstep : offset / 4096 + ((offset + k) / 4096 - offset / 4096) = (offset + k) / 4096 := by
      omega
    rw [hsame] at hat ⊢
    rw [flatten, if_pos (by omega), hat _ (by omega) (by omega), hstep, Disk.byteAt]

/-- The call behind the resolution of its path. -/
theorem Disk.Sound.run_fsRead_from {d : Disk} (hd : d.Sound) {as : List Name} {i : ℕ}
    (hi : d.graph.resolve 4 (fileNames as) = some i) (hfile : d.IsFile i) (behind buffer : ℕ → Byte)
    (size offset : ℕ) : (fsRead env (pathString as behind) buffer size offset).run vdisk d =
      (do
        let buffer ← readLoop env (d.inode i) (cInt size) size (cInt (offset / 4096 : ℕ))
          (offset % 4096) 0 buffer
        pure (getMin (cInt size) (cInt (d.inode i).stSize.toNat), buffer) : Fs _).run vdisk d := by
  have hn := hd.directories.file i hfile.lt hfile.not_isDir
  have hsize : (d.inode i).stSize.toInt = ((d.inode i).stSize.toNat : ℤ) :=
    toInt_eq_natCast_long (by omega)
  have hpath : (pathString as behind).chars = pathChars as := rfl
  rw [fsRead, hpath, Prog.run_bind_some _ (hd.walkable.run_understandThePath env hi),
    Prog.run_bind_some _ (run_justReadInodeFromDisk env hfile.lt d), hsize]

/-- **What `fs_read` reports**: on every regular file and for every offset and size, the call
returns the number of bytes the file has there, and these bytes, exactly if the request stays within
the ranks an inode can address and its count is one that fits. -/
theorem read_length_iff (env : Env) {d : Disk} (hd : d.Sound) {as : List Name} {i : ℕ}
    (hi : d.graph.resolve 4 (fileNames as) = some i) (hfile : d.IsFile i) (behind buffer : ℕ → Byte)
    (size offset : ℕ) :
    (∃ out, (fsRead env (pathString as behind) buffer size offset).run vdisk d =
        some ((((readCount (d.inode i).stSize.toNat size offset : ℕ) : ℤ), out), d) ∧
      ∀ k < readCount (d.inode i).stSize.toNat size offset, out k = d.byteAt i (offset + k)) ↔
    ReadFits size offset ∧ CountFits (d.inode i).stSize.toNat size offset := by
  have hn := hd.directories.file i hfile.lt hfile.not_isDir
  have hlt : (d.inode i).stSize.toNat < 2 ^ 31 := by omega
  rw [hd.run_fsRead_from env hi hfile]
  constructor
  · rintro ⟨out, hrun, -⟩
    obtain ⟨buffer', t, hloop, hret⟩ := (Prog.run_bind_eq_some vdisk).mp hrun
    have hfits := (inside_readLoop_iff env size offset buffer).mp ⟨buffer', t, hloop⟩
    rw [Prog.pure_eq_ret, Prog.run_ret, Option.some.injEq, Prod.mk.injEq, Prod.mk.injEq] at hret
    exact ⟨hfits, (getMin_eq_readCount_iff hlt hfits.size_nonneg offset).mp hret.1.1⟩
  · rintro ⟨hfits, hcount⟩
    obtain ⟨out, hloop, hout⟩ := hd.run_readLoop env hfile.lt hfits buffer
    have hreturn := (getMin_eq_readCount_iff hlt hfits.size_nonneg offset).mpr hcount
    refine ⟨out, ?_, fun k hk => ?_⟩
    · rw [Prog.run_bind_some _ hloop, hreturn]
      rfl
    · have hmin : (readCount (d.inode i).stSize.toNat size offset : ℤ) ≤ cInt size := by
        rw [← hreturn, getMin]
        split <;> omega
      have hend : offset + k < (d.inode i).stSize.toNat := by
        rw [readCount] at hk
        split at hk <;> omega
      exact hout k (by omega) (by omega)

/-- Two bytes inside a file of three. -/
theorem read_length_inside : ∃ d i, SafeRun d ∧ (d.inode i).stSize.toNat = 3 ∧
    ∃ out, (fsRead plainEnv (pathString [nthName 0] plainMemory) (fun _ => 0) 2 1).run vdisk d =
        some ((2, out), d) ∧ ∀ k < 2, out k = d.byteAt i (1 + k) := by
  obtain ⟨d, i, hrun, hi, hfile, hsize, -⟩ := exists_safeRun_three
  obtain ⟨out, hread, hout⟩ :=
    (read_length_iff plainEnv hrun.sound hi hfile plainMemory (fun _ => 0)
    2 1).mpr ⟨⟨by decide, .inr (by decide), .inr (by decide)⟩, by rw [hsize, CountFits]; decide⟩
  rw [hsize] at hread hout
  exact ⟨d, i, hrun, hsize, out, hread, hout⟩

/-- At the end of a file of three bytes, `fs_read` reports three more. -/
theorem not_read_length_at_end : ∃ d i, SafeRun d ∧
    d.graph.resolve 4 (fileNames [nthName 0]) = some i ∧ d.IsFile i ∧
    (d.inode i).stSize.toNat = 3 ∧ readCount 3 10 3 = 0 ∧
    ∃ out, (fsRead plainEnv (pathString [nthName 0] plainMemory) (fun _ => 0) 10 3).run vdisk d =
      some ((3, out), d) := by
  obtain ⟨d, i, hrun, hi, hfile, hsize, -⟩ := exists_safeRun_three
  have hfits : ReadFits 10 3 := ⟨by decide, .inr (by decide), .inr (by decide)⟩
  obtain ⟨out, hloop, -⟩ := hrun.sound.run_readLoop plainEnv hfile.lt hfits fun _ => 0
  refine ⟨d, i, hrun, hi, hfile, hsize, by decide, out, ?_⟩
  rw [hrun.sound.run_fsRead_from plainEnv hi hfile, Prog.run_bind_some _ hloop, hsize]
  rfl

end InodeFs
