/-
  Writing over old bytes.

  A write puts whole blocks on disk.  In front of its offset they hold what they held, and behind
  its end zeros (`newByte`): old bytes there are gone.  So a write leaves the rest of its file as
  it was exactly when what it covers with zeros was zero.

  That needs the rest to be on disk: `Backed` is the invariant that every offset written has its
  block, in runs whose writes start in one.

  `Stored.fileByte_padding` and `Stored.fileByte_outside` say where the zeros go: from the end of
  the write to the end of the block it ends in.  So the condition of `overwrite_kept_iff` looks at
  the bytes written before in that stretch only, in the state before the write.  `RestKept` asks
  for more than equal bytes on disk: a read of them has to deliver them.
-/
import OsCodes.SimpleFS.Written

namespace OsCodes.SimpleFS

open Bytes

/-! ## What a successful write stores -/

/-- **A write that returns 0** stores its bytes, at any offset that keeps it in 0..256. -/
theorem write_stored {tempBuf : Nat → Mem} {fs fs' : FS} {h : Fin 20} {i : Fin 8} {buf : Mem}
    {nbytes : Int32} {o n : Nat} (hd : Owned fs.disk) (hi : fs.Bound h i) (huse : fs.disk.InUse i)
    (ho : (fs.fileHandleArray h).offset.toInt = o) (hn : nbytes.toInt = n) (hend : o + n ≤ 256)
    (hw : Ops.write tempBuf h buf nbytes fs = .ok (0, fs')) :
    Stored fs.disk fs'.disk i o n buf := by
  rcases hole_cases (fs.disk.inode i).directBlocks (o := o) (by omega) with hown | ⟨hoff, hhole⟩
  · obtain ⟨r, d', hrun, -, hcase⟩ := write_cases tempBuf buf hd hi huse ho hn hend hown
    rw [hrun, Except.ok.injEq, Prod.mk.injEq] at hw
    obtain ⟨rfl, rfl⟩ := hw
    rcases hcase with ⟨hneg, -⟩ | ⟨-, -, hwr⟩
    · exact absurd hneg (by decide)
    · exact hwr.stored hd
  · obtain ⟨r, d', hrun, -, hcase⟩ := write_hole tempBuf buf hd hi huse ho hn hend hoff hhole
    rw [hrun, Except.ok.injEq, Prod.mk.injEq] at hw
    obtain ⟨rfl, rfl⟩ := hw
    rcases hcase with ⟨hneg, -⟩ | ⟨-, -, -, hst, -⟩
    · exact absurd hneg (by decide)
    · exact hst

section FileBytes

variable {d d' : Disk} {i : Fin 8} {o n p : Nat} {buf : Mem}

/-- The slot and the place of an offset. -/
theorem exists_slot (hp : p < 256) : ∃ (c : Fin 4) (k : Nat), k < 64 ∧ p = 64 * c.val + k :=
  ⟨⟨p / 64, by omega⟩, p % 64, by omega, by simp only; omega⟩

/-- In front of the offset, and behind the last block that is written, bytes stay. -/
theorem Stored.fileByte_outside (hst : Stored d d' i o n buf)
    (hp : p < o ∨ 64 * ((o + n + 63) / 64) ≤ p) : d'.fileByte i p = d.fileByte i p := by
  by_cases hp256 : p < 256
  · obtain ⟨c, k, hk, rfl⟩ := exists_slot hp256
    have hcast : ((64 * c.val + k : Nat) : Int) = 64 * (c.val : Int) + k := by omega
    rw [hcast]
    by_cases hT : Touched o n c
    · have hlow : 64 * c.val + k < o := by
        rcases hT with hT | hT
        · omega
        · omega
      have hsame := hst.off c (by omega)
      cases hb : d'.owner (i, c) with
      | none =>
        refine Disk.fileByte_congr ?_ ?_
        · intro c' h1 h2
          obtain rfl : c' = c := Fin.ext (by omega)
          rw [Disk.owner, Disk.owner, hsame]
        · intro c' b k' hpk hk' hb'
          obtain rfl : c' = c := Fin.ext (by omega)
          rw [Disk.owner, ← hsame] at hb'
          rw [Disk.owner, hb'] at hb
          cases hb
      | some b =>
        have hb' : d.owner (i, c) = some b := by
          rw [Disk.owner, ← hsame]
          exact hb
        rw [hst.fileByte_touched hT hb hk, newByte, if_pos hlow]
        exact (Disk.fileByte_eq_some.mpr ⟨c, b, k, hk, rfl, hb', rfl⟩).symm
    · exact hst.fileByte_untouched hT hk
  · unfold Disk.fileByte
    rw [dif_neg (by omega), dif_neg (by omega)]

/-- Between the end and the end of that block there are zeros. -/
theorem Stored.fileByte_padding (hst : Stored d d' i o n buf) (hp : o + n ≤ p)
    (hp' : p < 64 * ((o + n + 63) / 64)) {c : Fin 4} (hc : c.val = p / 64)
    (hblk : (d.inode i).directBlocks c ≠ -1) : d'.fileByte i p = some 0 := by
  obtain ⟨b, hb, -⟩ := hst.present c (by rw [hst.keep c hblk]; exact hblk)
  have hcast : (p : Int) = 64 * (c.val : Int) + (p % 64 : Nat) := by omega
  have hT : Touched o n c := .inl ⟨by omega, by omega⟩
  rw [hcast, hst.fileByte_touched hT (Disk.owner_eq_some.mpr hb) (by omega), newByte,
    if_neg (by omega), if_neg (by omega)]

end FileBytes

/-! ## What a read sees -/

/-- Byte `p` of the file in inode `i` is `v`, and an accepted read of it delivers that. -/
structure Holds (fs : FS) (i : Fin 8) (p : Nat) (v : UInt8) : Prop where
  byte : fs.disk.fileByte i p = some v
  read : ∀ (temp : Int → UInt8) (h : Fin 20) (nbytes : Int32), fs.Bound h i →
    (fs.fileHandleArray h).offset.toInt = p → 0 < nbytes.toInt →
    ¬ ReadRefused fs h nbytes (fs.disk.inode i) →
    ∃ rest, Ops.read temp h nbytes fs = .ok (0, v :: rest)

/-- **A read delivers what is on disk** in the blocks of the file. -/
theorem holds_of_byte {fs : FS} {i : Fin 8} {p : Nat} {v : UInt8} (hd : fs.disk.Formatted)
    (hblk : ∀ c, (fs.disk.inode i).directBlocks c ≠ -1 →
      ∃ b : Fin 30, (fs.disk.inode i).directBlocks c = Int32.ofInt b.val ∧ fs.disk.Present b)
    (hv : fs.disk.fileByte i p = some v) : Holds fs i p v := by
  refine ⟨hv, ?_⟩
  intro temp h nbytes hi hoff hpos hacc
  rcases read_present temp nbytes hd hi hblk with ⟨hrej, -⟩ | ⟨-, temp', hst, hread⟩
  · exact absurd hrej hacc
  · obtain ⟨m, hm⟩ : ∃ m, nbytes.toInt.toNat = m + 1 := ⟨nbytes.toInt.toNat - 1, by omega⟩
    have hfirst : strncpy (fun k => temp' ((fs.fileHandleArray h).offset.toInt + k)) 0 = v := by
      rw [strncpy_head, hoff]
      exact hst.fileByte (by rw [Int.natCast_zero, Int.add_zero]; exact hv)
    rw [hread, hm, List.range_succ_eq_map, List.map_cons, hfirst]
    exact ⟨_, rfl⟩

/-! ## Over whole runs -/

/-- Every offset written is in a block of the file. -/
def Backed (record : Inode) (W : Nat → Bool) : Prop :=
  ∀ p, W p = true → ∃ c : Fin 4, c.val = p / 64 ∧ record.directBlocks c ≠ -1

/-- A write through a handle on inode `i` that is refused, or ends in 0..256 and starts at the
    start of a block or in one that the file owns, or runs out of blocks. -/
def WritePlaced (fs : FS) (h : Fin 20) (i : Fin 8) (nbytes : Int32) : Prop :=
  WriteRefused fs h nbytes (fs.disk.inode i) ∨
  ∃ o n : Nat, (fs.fileHandleArray h).offset.toInt = o ∧ nbytes.toInt = n ∧ o + n ≤ 256 ∧
    (o % 64 = 0 ∨ (∃ c : Fin 4, c.val = o / 64 ∧ (fs.disk.inode i).directBlocks c ≠ -1) ∨
      fs.disk.freeCount < (emptySlots (fs.disk.inode i).directBlocks o n).length)

theorem WritePlaced.writeKept {fs : FS} {h : Fin 20} {i : Fin 8} {nbytes : Int32}
    (hp : WritePlaced fs h i nbytes) (buf : Mem) : WriteKept fs h i buf nbytes := by
  rcases hp with hrej | ⟨o, n, ho, hn, hend, hplace⟩
  · exact .inl hrej
  · refine .inr ⟨o, n, ho, hn, hend, ?_⟩
    rcases hplace with hal | hown | hlt
    · exact .inl hal
    · exact .inr (.inl hown)
    · exact .inr (.inr (.inl hlt))

/-- A client that writes through open handles, in place. -/
def Placed (s : (FS × History) × Written) (e : Event) : Prop :=
  ∀ h buf nbytes, e.op = .write h buf nbytes →
    ∃ i, s.1.1.Bound h i ∧ WritePlaced s.1.1 h i nbytes

theorem Placed.contained {s : (FS × History) × Written} {e : Event} (h : Placed s e) :
    Contained s.1 e := by
  intro k buf nbytes hop
  obtain ⟨i, hi, hp⟩ := h k buf nbytes hop
  exact ⟨i, hi, hp.writeKept buf⟩

/-- A write in place has blocks for what it writes. -/
theorem Backed.wrote {d d' : Disk} {i : Fin 8} {o n : Nat} {buf : Mem} {W : Nat → Bool}
    (h : Backed (d.inode i) W) (hw : Wrote d d' i o n buf) (hend : o + n ≤ 256)
    (hplace : o % 64 = 0 ∨ ∃ c : Fin 4, c.val = o / 64 ∧ (d.inode i).directBlocks c ≠ -1) :
    Backed (d'.inode i) (Extent.mark W o n) := by
  have hkeep : ∀ c, (d.inode i).directBlocks c ≠ -1 → (d'.inode i).directBlocks c ≠ -1 := by
    intro c hc
    rw [hw.filled.keep c hc]
    exact hc
  intro p hp
  rcases Extent.mark_eq_true.mp hp with hold | ⟨hlo, hhi⟩
  · obtain ⟨c, hc, hblk⟩ := h p hold
    exact ⟨c, hc, hkeep c hblk⟩
  · by_cases hin : o ≤ 64 * (p / 64)
    · exact ⟨⟨p / 64, by omega⟩, rfl, hw.filled.filled _ ⟨by simp only; omega, by simp only; omega⟩⟩
    · -- in the partial block
      obtain ⟨c, hc, hblk⟩ := hplace.resolve_left (by omega)
      exact ⟨c, by omega, hkeep c hblk⟩

/-- **Every call** of such a client keeps the bytes written backed. -/
theorem backed_step {s : (FS × History) × Written} {e : Event} {fs' : FS}
    (h : EveryFile Backed s.1.1.disk s.2) (hd : Owned s.1.1.disk) (hplaced : Placed s e)
    (hrun : Ops.exec e.uninit s.1.1 e.op = .ok (e.ret, fs')) :
    EveryFile Backed fs'.disk (written s.1 s.2 e) := by
  refine h.step hd hplaced.contained hrun ?_ ?_
  · intro f i _ _ _ p hp
    cases hp
  · obtain ⟨op, u, ret⟩ := e
    rintro k buf nbytes i o n rfl hval hi huse ho hn hend hwr
    obtain ⟨j, hj, hp⟩ := hplaced k buf nbytes rfl
    obtain rfl := bound_unique hi hj
    obtain ⟨hwrite, -⟩ := exec_write hrun
    rw [hval] at hwrite
    refine (h i huse).wrote hwr hend ?_
    rcases hp with hrej | ⟨o', n', ho', hn', -, hal | hown | hlt⟩
    · rw [write_rejected u.tempBuf buf hd.formatted hi hrej] at hwrite
      cases hwrite
    · left
      omega
    · right
      obtain rfl : o = o' := by omega
      exact hown
    · obtain rfl : o = o' := by omega
      obtain rfl : n = n' := by omega
      have hle := write_enough hd.formatted hi huse ho hn hend hwrite
      omega

theorem backed_reach {s : (FS × History) × Written} (h : (simplefsWritten.guard Placed).Reach s) :
    Owned s.1.1.disk ∧ Tracks s.1.1 s.1.2 ∧ EveryFile Backed s.1.1.disk s.2 :=
  EveryFile.reach (fun _ _ _ _ hplaced => hplaced.contained)
    (fun _ _ _ hd hb hplaced hrun => backed_step hb hd hplaced hrun) h

/-- Every byte written before outside of `[o, o + n)` is in `fs'` what it was. -/
def RestKept (s : (FS × History) × Written) (fs' : FS) (i : Fin 8) (o n : Nat) : Prop :=
  ∀ p, s.2 i p = true → ¬ (o ≤ p ∧ p < o + n) → ∃ v, Holds s.1.1 i p v ∧ Holds fs' i p v

/-- **Overwriting.**  In every state of such a run, a write of `n` bytes at `o` that returns 0
    keeps the rest of the file exactly when it covers zeros only: the bytes written before from its
    end to the end of its last block. -/
theorem overwrite_kept_iff {s : (FS × History) × Written}
    (hs : (simplefsWritten.guard Placed).Reach s) {tempBuf : Nat → Mem} {h : Fin 20} {i : Fin 8}
    {buf : Mem} {nbytes : Int32} {o n : Nat} {fs' : FS} (hl : s.1.2.LiveAt h i)
    (ho : (s.1.1.fileHandleArray h).offset.toInt = o) (hn : nbytes.toInt = n)
    (hend : o + n ≤ 256) (hw : Ops.write tempBuf h buf nbytes s.1.1 = .ok (0, fs')) :
    RestKept s fs' i o n ↔ ∀ p, s.2 i p = true → o + n ≤ p → p < 64 * ((o + n + 63) / 64) →
      s.1.1.disk.fileByte i p = some 0 := by
  obtain ⟨hd, ht, hb⟩ := backed_reach hs
  have huse := ht.inUse_of_live hl
  have hst := write_stored hd (ht.live hl) huse ho hn hend hw
  have hpad : ∀ p, s.2 i p = true → o + n ≤ p → p < 64 * ((o + n + 63) / 64) →
      fs'.disk.fileByte i p = some 0 := by
    intro p hp hlo hhi
    obtain ⟨c, hc, hblk⟩ := hb i huse p hp
    exact hst.fileByte_padding hlo hhi hc hblk
  constructor
  · intro hkept p hp hlo hhi
    obtain ⟨v, hold, hnew⟩ := hkept p hp (by omega)
    have h0 := hpad p hp hlo hhi
    rw [hnew.byte] at h0
    rw [hold.byte, h0]
  · intro hzero p hp hout
    obtain ⟨c, hc, hblk⟩ := hb i huse p hp
    obtain ⟨b, hbc, -⟩ := hd.blocks c hblk
    have hold : s.1.1.disk.fileByte i p = some (s.1.1.disk.block b (p % 64)) :=
      Disk.fileByte_eq_some.mpr
        ⟨c, b, p % 64, by omega, by omega, Disk.owner_eq_some.mpr hbc, rfl⟩
    have hsame : fs'.disk.fileByte i p = s.1.1.disk.fileByte i p := by
      by_cases hin : o + n ≤ p ∧ p < 64 * ((o + n + 63) / 64)
      · rw [hpad p hp hin.1 hin.2, hzero p hp hin.1 hin.2]
      · exact hst.fileByte_outside (by omega)
    refine ⟨_, holds_of_byte hd.formatted hd.blocks hold, ?_⟩
    exact holds_of_byte (Nat.le_trans hd.formatted hst.size) hst.present (hsame.trans hold)

/-- Whether the call is no write, or one that starts in a block, is enough to be `Placed`. -/
theorem placed_of_startsWrite {s : (FS × History) × Written} {e : Event}
    (h : startsWrite s.1 e = true) : Placed s e := by
  intro k buf nbytes hop
  rw [startsWrite, hop] at h
  obtain ⟨i, hi, hs⟩ := of_decide_eq_true h
  obtain ⟨o, n, ho, hn, hend, hplace⟩ := hs.place
  exact ⟨i, hi, .inr ⟨o, n, ho, hn, hend, hplace.elim .inl fun hown => .inr (.inl hown)⟩⟩

/-- A file of 70 bytes: 64 bytes over its first block keep the others, one byte does not. -/
theorem overwrite_kept_iff_twice :
    ∃ s fs' fs'', (simplefsWritten.guard Placed).Reach s ∧ s.1.2.LiveAt 0 0 ∧
      s.2 0 1 = true ∧ s.2 0 69 = true ∧
      Ops.write (fun _ _ => 0) 0 (fun _ => 121) 64 s.1.1 = .ok (0, fs') ∧ RestKept s fs' 0 0 64 ∧
      Ops.write (fun _ _ => 0) 0 (fun _ => 121) 1 s.1.1 = .ok (0, fs'') ∧
      ¬ RestKept s fs'' 0 0 1 := by
  have hrun : (runRecorded written (fun _ _ => false) (fun s => startsWrite s.1)
      [.create nameA, .openFile nameA, .write 0 (fun _ => 120) 70]).bind
      (fun s => (Ops.write (fun _ _ => 0) 0 (fun _ => 121) 64 s.1.1).toOption.bind fun x =>
        (Ops.write (fun _ _ => 0) 0 (fun _ => 121) 1 s.1.1).toOption.map fun y =>
          ([s.1.2.slot 0, s.1.2.inst 0], [(s.1.1.fileHandleArray 0).offset.toInt, x.1, y.1],
            [s.2 0 1, s.2 0 69], s.1.1.disk.fileByte 0 1)) =
      some ([some 0, some 0], [0, 0, 0], [true, true], some 120) := by decide +kernel
  obtain ⟨s, hs, hx⟩ := Option.bind_eq_some_iff.mp hrun
  obtain ⟨⟨r, fs'⟩, hw, hy⟩ := Option.bind_eq_some_iff.mp hx
  obtain ⟨⟨r', fs''⟩, hw', hfacts⟩ := Option.map_eq_some_iff.mp hy
  simp only [Prod.mk.injEq, List.cons.injEq, and_true] at hfacts
  obtain ⟨⟨hslot, hinst⟩, ⟨hoff, rfl, rfl⟩, ⟨hone, hlast⟩, hbyte⟩ := hfacts
  have hreach : (simplefsWritten.guard Placed).Reach s :=
    runRecorded_reach hs fun s e _ hc => placed_of_startsWrite hc
  have hl : s.1.2.LiveAt 0 0 := ⟨0, hslot, hinst⟩
  have hwrite := toOption_eq_some.mp hw
  have hwrite' := toOption_eq_some.mp hw'
  refine ⟨s, fs', fs'', hreach, hl, hone, hlast, hwrite, ?_, hwrite', fun hkept => ?_⟩
  · -- 64 bytes end where the block does
    have hiff := overwrite_kept_iff (o := 0) (n := 64) hreach hl hoff rfl (by decide) hwrite
    refine hiff.mpr fun p _ hlo hhi => ?_
    omega
  · have hiff := overwrite_kept_iff (o := 0) (n := 1) hreach hl hoff rfl (by decide) hwrite'
    have hcond := hiff.mp hkept
    have h0 := hcond 1 hone (by decide) (by decide)
    rw [Int.natCast_one, hbyte] at h0
    cases h0

/-- **One byte over six**: the other five are gone. -/
theorem overwrite_wipes :
    ¬ ∀ s, simplefsWritten.Reach s → ∀ (tempBuf : Nat → Mem) (h : Fin 20) (i : Fin 8) (buf : Mem)
      (nbytes : Int32) (o n : Nat) (fs' : FS), s.1.2.LiveAt h i →
      (s.1.1.fileHandleArray h).offset.toInt = o → (o : Int) ≤ (s.1.1.disk.inode i).fileSize.toInt →
      nbytes.toInt = n → o + n ≤ 256 →
      Ops.write tempBuf h buf nbytes s.1.1 = .ok (0, fs') → RestKept s fs' i o n := by
  intro hall
  have hrun : (runRecorded written (fun _ _ => false) (fun _ _ => true) [.create nameA,
      .openFile nameA, .write 0 (fun _ => 120) 6]).bind
      (fun s => (Ops.write (fun _ _ => 0) 0 (fun _ => 120) 1 s.1.1).toOption.map fun x =>
        ([s.1.2.slot 0, s.1.2.inst 0], [(s.1.1.fileHandleArray 0).offset.toInt,
          (s.1.1.disk.inode 0).fileSize.toInt, x.1], s.2 0 1,
          [s.1.1.disk.fileByte 0 1, x.2.disk.fileByte 0 1])) =
      some ([some 0, some 0], [0, 6, 0], true, [some 120, some 0]) := by decide +kernel
  obtain ⟨s, hs, hx⟩ := Option.bind_eq_some_iff.mp hrun
  obtain ⟨⟨r, fs'⟩, hw, hfacts⟩ := Option.map_eq_some_iff.mp hx
  simp only [Prod.mk.injEq, List.cons.injEq, and_true] at hfacts
  obtain ⟨⟨hslot, hinst⟩, ⟨hoff, hsize, rfl⟩, hone, hold, hnew⟩ := hfacts
  have hreach : (simplefsWritten.guard fun _ _ => True).Reach s :=
    runRecorded_reach hs fun _ _ _ _ => trivial
  have hkept := hall s hreach.of_guard (fun _ _ => 0) 0 0 (fun _ => 120) 1 0 1 fs'
    ⟨0, hslot, hinst⟩ hoff (by rw [hsize]; decide) (by rfl) (by decide)
    (toOption_eq_some.mp hw)
  obtain ⟨v, hv, hv'⟩ := hkept 1 hone (by omega)
  have hsame : s.1.1.disk.fileByte 0 1 = fs'.disk.fileByte 0 1 := hv.byte.trans hv'.byte.symm
  rw [hold, hnew] at hsame
  exact absurd hsame (by decide)

end OsCodes.SimpleFS
