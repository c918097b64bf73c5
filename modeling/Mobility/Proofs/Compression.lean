import Mobility.Gzip.Basic

/-!
# Compressed files are read whole

A stored block comes out as it went in (`Gzip.Inflate.reads_block`), whatever follows it, so the stream of a compressed
file comes out as what was compressed, and its trailer matches (`Gzip.decompress_compress`).
-/

set_option autoImplicit false

namespace Mobility.Gzip

namespace Inflate

variable {α β : Type}

/-- A stream of which whole bytes were read. -/
structure Stands (s : Stream) (rest output : List UInt8) : Prop where
  aligned : s.used = 0
  rest : s.rest = rest
  output : s.output.toList = output

/-- The reader takes exactly these bytes, whatever follows, makes `a` of them and puts `emitted` out. -/
def Reads (reader : Inflate α) (bytes : List UInt8) (a : α) (emitted : List UInt8) : Prop :=
  ∀ s rest output, Stands s (bytes ++ rest) output →
    ∃ s', reader.run s = .ok a s' ∧ Stands s' rest (output ++ emitted)

theorem bind_run {reader : Inflate α} {next : α → Inflate β} {s s' : Stream} {a : α}
    (h : reader.run s = .ok a s') : (reader >>= next).run s = (next a).run s' := by
  rw [EStateM.run_bind, h]

theorem Reads.pure (a : α) : Reads (pure a) [] a [] := by
  intro s rest output h
  exact ⟨s, rfl, by simpa using h⟩

theorem Reads.bind {reader : Inflate α} {next : α → Inflate β} {bytes bytes' emitted emitted' : List UInt8} {a : α}
    {b : β} (h : Reads reader bytes a emitted) (h' : Reads (next a) bytes' b emitted') :
    Reads (reader >>= next) (bytes ++ bytes') b (emitted ++ emitted') := by
  intro s rest output stands
  rw [List.append_assoc] at stands
  obtain ⟨s₁, first, stands⟩ := h s _ _ stands
  obtain ⟨s₂, second, stands⟩ := h' s₁ _ _ stands
  rw [List.append_assoc] at stands
  exact ⟨s₂, (bind_run first).trans second, stands⟩

/-! ## Bytes -/

/-- Portions and rounds make no difference to what is read and put out. -/
theorem Stands.load {s : Stream} {rest output : List UInt8} (h : Stands s rest output) :
    Stands s.load rest output := by
  unfold Stream.load
  split
  · exact ⟨h.aligned, h.rest, h.output⟩
  · exact h

theorem Stands.makeRoom {s : Stream} {rest output : List UInt8} (h : Stands s rest output) :
    Stands s.makeRoom rest output := by
  simp only [Stream.makeRoom]
  split
  · exact h
  · split
    · exact ⟨h.aligned, h.rest, h.output⟩
    · exact ⟨h.aligned, h.rest, h.output⟩

theorem byte_run {s : Stream} {b : UInt8} {rest : List UInt8} (h : s.load.rest = b :: rest) :
    byte.run s = .ok b { s.load with rest := rest, position := s.load.position + 1 } := by
  have loads : EStateM.run (modify Stream.load : Inflate PUnit) s = .ok () s.load := rfl
  have gets : EStateM.run (get : Inflate Stream) s.load = .ok s.load s.load := rfl
  unfold byte
  rw [bind_run loads, bind_run gets, h]
  rfl

theorem reads_byte (b : UInt8) : Reads byte [b] b [] := by
  intro s rest output h
  have loaded := h.load
  exact ⟨_, byte_run loaded.rest, loaded.aligned, rfl, by simpa using loaded.output⟩

theorem reads_number {width n : Nat} (h : n < LittleEndian.limit width) :
    Reads (number width) (LittleEndian.encode width n) n [] := by
  induction width generalizing n with
  | zero =>
    obtain rfl : n = 0 := by simpa [LittleEndian.limit] using h
    exact Reads.pure 0
  | succ width ih =>
    have small : n / 0x100 < LittleEndian.limit width := by
      rw [LittleEndian.limit] at h
      omega
    have value : (UInt8.ofNat n).toNat + 0x100 * (n / 0x100) = n := by
      rw [UInt8.toNat_ofNat']
      omega
    have higher : Reads (number width >>= fun high => pure ((UInt8.ofNat n).toNat + 0x100 * high))
        (LittleEndian.encode width (n / 0x100) ++ []) n ([] ++ []) := by
      refine (ih small).bind ?_
      rw [value]
      exact Reads.pure n
    rw [List.append_nil] at higher
    exact (reads_byte (UInt8.ofNat n)).bind higher

theorem reads_emit (b : UInt8) : Reads (emit b) [] () [b] := by
  intro s rest output h
  have room := h.makeRoom
  refine ⟨_, rfl, room.aligned, room.rest, ?_⟩
  show (s.makeRoom.output.push b).toList = output ++ [b]
  rw [Array.toList_push, room.output]

theorem reads_makeRoom : Reads (modify Stream.makeRoom) [] () [] := by
  intro s rest output h
  rw [List.append_nil]
  exact ⟨_, rfl, h.makeRoom⟩

theorem reads_copyBytes (data : List UInt8) : Reads (copyBytes data.length) data () data := by
  induction data with
  | nil => exact Reads.pure ()
  | cons b data ih =>
    have emits : Reads (emit b >>= fun _ => copyBytes data.length) data () (b :: data) := (reads_emit b).bind ih
    exact reads_makeRoom.bind ((reads_byte b).bind emits)

/-! ## Blocks -/

/-- Within a byte, a bit is read without taking the byte. -/
theorem bit_within {s : Stream} {b : UInt8} {rest : List UInt8} (more : s.rest = b :: rest) (room : s.used ≠ 7) :
    ∃ s', bit.run s = .ok (b.toNat >>> s.used % 2) s' ∧ s'.used = s.used + 1 ∧ s'.rest = s.rest ∧
      s'.output = s.output := by
  have loads : s.load.rest = s.rest ∧ s.load.used = s.used ∧ s.load.output = s.output := by
    unfold Stream.load
    split <;> exact ⟨rfl, rfl, rfl⟩
  obtain ⟨rest', used, output⟩ := loads
  refine ⟨{ s.load with rest := b :: rest, used := s.load.used + 1 }, ?_, congrArg (· + 1) used, more.symm, output⟩
  have loads : EStateM.run (modify Stream.load : Inflate PUnit) s = .ok () s.load := rfl
  have gets : EStateM.run (get : Inflate Stream) s.load = .ok s.load s.load := rfl
  unfold bit
  rw [bind_run loads, bind_run gets, rest', more]
  simp only [used, if_neg room]
  rfl

/-- What leads a stored block takes up its first byte. -/
theorem lead_run {s : Stream} {isLast : Bool} {rest output : List UInt8}
    (h : Stands s ((if isLast then 1 else 0) :: rest) output) :
    ∃ s₁ s₂ s₃, bit.run s = .ok (if isLast then 1 else 0) s₁ ∧ (bits 2).run s₁ = .ok 0 s₂ ∧
      align.run s₂ = .ok () s₃ ∧ Stands s₃ rest output := by
  obtain ⟨s₁, first, used₁, rest₁, output₁⟩ := bit_within h.rest (by rw [h.aligned]; decide)
  rw [h.aligned] at first used₁
  obtain ⟨s₂, second, used₂, rest₂, output₂⟩ := bit_within (rest₁.trans h.rest) (by rw [used₁]; decide)
  rw [used₁] at second used₂
  obtain ⟨s₃, third, used₃, rest₃, output₃⟩ := bit_within (rest₂.trans (rest₁.trans h.rest)) (by rw [used₂]; decide)
  rw [used₂] at third used₃
  have upper : ∀ used, used = 1 ∨ used = 2 → (if isLast then 1 else 0 : UInt8).toNat >>> used % 2 = 0 := by
    rintro used (rfl | rfl) <;> cases isLast <;> rfl
  rw [upper 1 (.inl rfl)] at second
  rw [upper 2 (.inr rfl)] at third
  have kind : (bits 2).run s₁ = .ok 0 s₃ := by
    have one : (bits 1).run s₂ = .ok 0 s₃ := bind_run third
    exact (bind_run second).trans (bind_run one)
  have begun : s₃.used ≠ 0 := by
    rw [used₃]
    exact Nat.succ_ne_zero _
  have aligns : align.run s₃ = .ok () { s₃ with rest := s₃.rest.drop 1, used := 0, position := s₃.position + 1 } := by
    show EStateM.Result.ok () (if s₃.used = 0 then s₃
      else { s₃ with rest := s₃.rest.drop 1, used := 0, position := s₃.position + 1 }) = _
    rw [if_neg begun]
  refine ⟨s₁, s₃, _, ?_, kind, aligns, rfl, ?_, ?_⟩
  · rw [first]
    cases isLast <;> rfl
  · show s₃.rest.drop 1 = rest
    rw [rest₃, rest₂, rest₁, h.rest]
    rfl
  · show s₃.output.toList = output
    rw [output₃, output₂, output₁, h.output]

/-- What follows in a stored block are the number of its bytes, twice, and the bytes. -/
theorem reads_stored {data : List UInt8} (h : data.length ≤ blockSize) :
    Reads (do
      let length ← number 2
      let complement ← number 2
      if length + complement = 0x10000 - 1 then copyBytes length else throw .corrupt)
      (LittleEndian.encode 2 data.length ++ (LittleEndian.encode 2 (blockSize - data.length) ++ data)) () data := by
  have size : blockSize < LittleEndian.limit 2 := by decide
  refine (reads_number (Nat.lt_of_le_of_lt h size)).bind ?_
  refine (reads_number (Nat.lt_of_le_of_lt (Nat.sub_le ..) size)).bind ?_
  rw [if_pos (by rw [Nat.add_sub_cancel' h]; rfl)]
  exact reads_copyBytes data

theorem reads_block {data : List UInt8} (h : data.length ≤ blockSize) (isLast : Bool) :
    Reads block (storedBlock isLast data) isLast data := by
  intro s rest output stands
  obtain ⟨s₁, s₂, s₃, first, kind, aligned, stands⟩ := lead_run stands
  rw [List.append_assoc] at stands
  obtain ⟨s₄, read, stands⟩ := reads_stored h s₃ rest output (by simpa using stands)
  have stored : stored.run s₂ = .ok () s₄ := (bind_run aligned).trans read
  have whole : block.run s = .ok (decide ((if isLast then 1 else 0) = 1)) s₄ :=
    (bind_run first).trans ((bind_run kind).trans (bind_run stored))
  refine ⟨s₄, ?_, stands⟩
  rw [whole]
  cases isLast <;> rfl

/-- A stream of stored blocks comes out as what went in. -/
theorem reads_blocks {data : List UInt8} {steps : Nat} (enough : (deflate data).length ≤ steps) :
    Reads (blocks steps) (deflate data) () data := by
  induction steps generalizing data with
  | zero =>
    rw [deflate] at enough
    split at enough <;> simp [storedBlock] at enough
  | succ steps ih =>
    rw [deflate] at enough ⊢
    split
    · rename_i fits
      have last : Reads (blocks (steps + 1)) (storedBlock true data ++ []) () (data ++ []) :=
        (reads_block fits true).bind (Reads.pure ())
      simpa using last
    · rename_i long
      rw [if_neg long, List.length_append] at enough
      have full : (data.take blockSize).length ≤ blockSize := List.length_take_le ..
      have shorter : (deflate (data.drop blockSize)).length ≤ steps := by
        simp only [storedBlock, List.length_cons] at enough
        omega
      have next : Reads (blocks (steps + 1)) (storedBlock false (data.take blockSize) ++ deflate (data.drop blockSize))
          () (data.take blockSize ++ data.drop blockSize) :=
        (reads_block full false).bind (ih shorter)
      rwa [List.take_append_drop] at next

end Inflate

/-! ## Files -/

/-- A compressed file has the shortest header. -/
theorem body_compress (data : List UInt8) : body (compress data) = some (deflate data ++ trailer data) := by
  have file : compress data =
      0x1f :: 0x8b :: 8 :: 0 :: ([0, 0, 0, 0, 4, 255] ++ (deflate data ++ trailer data)) := by
    simp [compress, magic]
  rw [file]
  unfold body
  simp [skipOptional]

/-- What was compressed is read whole. -/
theorem decompress_compress (data : List UInt8) : decompress (compress data) = ⟨data, true⟩ := by
  have begins : Inflate.Stands (Stream.start (deflate data ++ trailer data)
      ((compress data).length - (deflate data ++ trailer data).length)) (deflate data ++ trailer data) [] :=
    ⟨rfl, rfl, rfl⟩
  have enough : (deflate data).length ≤ 8 * (deflate data ++ trailer data).length + 1 := by
    rw [List.length_append]
    omega
  obtain ⟨s, read, stands⟩ := Inflate.reads_blocks enough _ _ _ begins
  have aligned : Inflate.align.run s = .ok () s := by
    show EStateM.Result.ok () (if s.used = 0 then s
      else { s with rest := s.rest.drop 1, used := 0, position := s.position + 1 }) = _
    rw [if_pos stands.aligned]
  have output : s.output.toList = data := stands.output
  unfold decompress
  rw [body_compress]
  simp only [Inflate.bind_run read, aligned]
  rw [output, stands.rest]
  simp

end Mobility.Gzip
