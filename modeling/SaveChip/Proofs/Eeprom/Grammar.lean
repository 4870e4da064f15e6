import SaveChip.Eeprom.Phase

/-! # The grammar of the line

A series of bits is a number of null commands and then one frame: less than a command, the
undefined command, or a read or a write that breaks off somewhere or is whole.  Whatever follows a
whole frame is ignored.  `Parse` is this structure, `Parse.bits` spells it out, and `Parse.Fits`
gives each part the length that it has on the wire.  The grammar is unambiguous: every series of
bits has the parse that `parse` computes and no other (`parse_eq_iff`). -/

namespace SaveChip

/-- A frame as far as it has arrived, and what follows it. -/
inductive Frame where
  /-- Less than a command. -/
  | command (bits : List Bool)
  | undefined (ignored : List Bool)
  | writeAddress (address : List Bool)
  | writeData (address data : List Bool)
  | write (address data : List Bool) (terminator : Bool) (ignored : List Bool)
  | readAddress (address : List Bool)
  | read (address : List Bool) (trailing : Bool) (ignored : List Bool)
deriving DecidableEq, Repr

namespace Frame

def bits : Frame → List Bool
  | command bits => bits
  | undefined ignored => false :: true :: ignored
  | writeAddress address => true :: false :: address
  | writeData address data => true :: false :: (address ++ data)
  | write address data terminator ignored =>
      true :: false :: (address ++ (data ++ terminator :: ignored))
  | readAddress address => true :: true :: address
  | read address trailing ignored => true :: true :: (address ++ trailing :: ignored)

/-- The parts of a frame have the lengths that they have on the wire. -/
def Fits (c : Capacity) : Frame → Prop
  | command bits => bits.length < 2
  | undefined _ => True
  | writeAddress address => address.length < c.addressBits
  | writeData address data => address.length = c.addressBits ∧ data.length ≤ blockBits
  | write address data _ _ => address.length = c.addressBits ∧ data.length = blockBits
  | readAddress address => address.length ≤ c.addressBits
  | read address _ _ => address.length = c.addressBits

/-- The frame of a write whose command is followed by the given bits. -/
def ofWrite (c : Capacity) (rest : List Bool) : Frame :=
  if rest.length < c.addressBits then
    writeAddress rest
  else
    match (rest.drop c.addressBits).drop blockBits with
    | [] => writeData (rest.take c.addressBits) (rest.drop c.addressBits)
    | terminator :: ignored =>
        write (rest.take c.addressBits) ((rest.drop c.addressBits).take blockBits) terminator ignored

/-- The frame of a read whose command is followed by the given bits. -/
def ofRead (c : Capacity) (rest : List Bool) : Frame :=
  match rest.drop c.addressBits with
  | [] => readAddress rest
  | trailing :: ignored => read (rest.take c.addressBits) trailing ignored

def ofBits (c : Capacity) : List Bool → Frame
  | false :: true :: ignored => undefined ignored
  | true :: false :: rest => ofWrite c rest
  | true :: true :: rest => ofRead c rest
  | bits => command bits

end Frame

/-- Null commands, and the frame after them. -/
structure Parse where
  nulls : Nat
  frame : Frame
deriving DecidableEq, Repr

namespace Parse

def bits (p : Parse) : List Bool := List.replicate (2 * p.nulls) false ++ p.frame.bits

def Fits (c : Capacity) (p : Parse) : Prop := p.frame.Fits c

/-- One more null command in front. -/
def afterNull (p : Parse) : Parse := ⟨p.nulls + 1, p.frame⟩

end Parse

def parse (c : Capacity) : List Bool → Parse
  | false :: false :: rest => (parse c rest).afterNull
  | bits => ⟨0, .ofBits c bits⟩

/-! ### Every series of bits has one parse -/

section

variable {c : Capacity} {f : Frame} {p : Parse}

namespace Frame

theorem bits_ofWrite (c : Capacity) (rest : List Bool) :
    (ofWrite c rest).bits = true :: false :: rest := by
  unfold ofWrite
  split
  · rfl
  · split
    · simp only [bits, List.take_append_drop]
    · rename_i hend
      simp only [bits, ← hend, List.take_append_drop]

theorem bits_ofRead (c : Capacity) (rest : List Bool) :
    (ofRead c rest).bits = true :: true :: rest := by
  unfold ofRead
  split
  · rfl
  · rename_i hend
    simp only [bits, ← hend, List.take_append_drop]

theorem fits_ofWrite (c : Capacity) (rest : List Bool) : (ofWrite c rest).Fits c := by
  unfold ofWrite
  split
  · assumption
  · have haddress : (rest.take c.addressBits).length = c.addressBits :=
      List.length_take_of_le (by omega)
    split
    · rename_i hend
      exact ⟨haddress, List.drop_eq_nil_iff.mp hend⟩
    · rename_i hend
      have hlength := congrArg List.length hend
      rw [List.length_drop, List.length_cons] at hlength
      exact ⟨haddress, List.length_take_of_le (by omega)⟩

theorem fits_ofRead (c : Capacity) (rest : List Bool) : (ofRead c rest).Fits c := by
  unfold ofRead
  split
  · rename_i hend
    exact List.drop_eq_nil_iff.mp hend
  · rename_i hend
    have hlength := congrArg List.length hend
    rw [List.length_drop, List.length_cons] at hlength
    exact List.length_take_of_le (by omega)

theorem ofWrite_writeAddress {address : List Bool} (h : address.length < c.addressBits) :
    ofWrite c address = writeAddress address := if_pos h

/-- Bits after the address are data, and what follows the data ends the write. -/
theorem ofWrite_append {address : List Bool} (h : address.length = c.addressBits)
    (rest : List Bool) :
    ofWrite c (address ++ rest) =
      match rest.drop blockBits with
      | [] => writeData address rest
      | terminator :: ignored => write address (rest.take blockBits) terminator ignored := by
  have hlong : ¬(address ++ rest).length < c.addressBits := by
    rw [List.length_append]
    omega
  rw [ofWrite, if_neg hlong, ← h, List.take_left, List.drop_left]

/-- Reading a frame off its bits gives the frame back. -/
theorem ofBits_bits (h : f.Fits c) : ofBits c f.bits = f := by
  cases f with
  | command bits =>
      match bits, h with
      | [], _ => rfl
      | [false], _ => rfl
      | [true], _ => rfl
  | undefined ignored => rfl
  | writeAddress address => exact ofWrite_writeAddress h
  | writeData address data =>
      obtain ⟨haddress, hdata⟩ := h
      have hend : data.drop blockBits = [] := List.drop_eq_nil_iff.mpr hdata
      rw [bits, ofBits, ofWrite_append haddress, hend]
  | write address data terminator ignored =>
      obtain ⟨haddress, hdata⟩ := h
      rw [bits, ofBits, ofWrite_append haddress, ← hdata, List.drop_left, List.take_left]
  | readAddress address =>
      have hend : address.drop c.addressBits = [] := List.drop_eq_nil_iff.mpr h
      rw [bits, ofBits, ofRead, hend]
  | read address trailing ignored =>
      have haddress : address.length = c.addressBits := h
      rw [bits, ofBits, ofRead, ← haddress, List.drop_left, List.take_left]

/-- No frame starts with a null command. -/
theorem bits_ne_null (h : f.Fits c) (rest : List Bool) : f.bits ≠ false :: false :: rest := by
  intro hnull
  cases f with
  | command bits =>
      have hlength : bits.length < 2 := h
      rw [Frame.bits] at hnull
      rw [hnull, List.length_cons, List.length_cons] at hlength
      omega
  | undefined | writeAddress | writeData | write | readAddress | read => cases hnull

end Frame

theorem parse_of_ne_null {bits : List Bool} (h : ∀ rest, bits ≠ false :: false :: rest) :
    parse c bits = ⟨0, .ofBits c bits⟩ := by
  rw [parse]
  exact h

/-- Parsing what a parse spells gives the parse back. -/
theorem parse_bits (h : p.Fits c) : parse c p.bits = p := by
  obtain ⟨nulls, f⟩ := p
  induction nulls with
  | zero =>
      change parse c f.bits = _
      rw [parse_of_ne_null (Frame.bits_ne_null h), Frame.ofBits_bits h]
  | succ nulls ih =>
      change parse c (false :: false :: (List.replicate (2 * nulls) false ++ f.bits)) = _
      have hrest : parse c (List.replicate (2 * nulls) false ++ f.bits) = ⟨nulls, f⟩ := ih h
      rw [parse, hrest, Parse.afterNull]

/-- The parse of a series of bits spells it, and its parts have the right lengths. -/
theorem bits_parse (c : Capacity) (bits : List Bool) :
    (parse c bits).Fits c ∧ (parse c bits).bits = bits := by
  fun_induction parse c bits with
  | case1 rest ih =>
      obtain ⟨hfits, hbits⟩ := ih
      refine ⟨hfits, ?_⟩
      change false :: false :: (parse c rest).bits = _
      rw [hbits]
  | case2 bits hnull =>
      change (Frame.ofBits c bits).Fits c ∧ (Frame.ofBits c bits).bits = bits
      unfold Frame.ofBits
      split
      · exact ⟨trivial, rfl⟩
      · exact ⟨Frame.fits_ofWrite c _, Frame.bits_ofWrite c _⟩
      · exact ⟨Frame.fits_ofRead c _, Frame.bits_ofRead c _⟩
      · rename_i hundefined hwrite hread
        refine ⟨?_, rfl⟩
        match bits with
        | [] => exact Nat.zero_lt_two
        | [_] => exact Nat.one_lt_two
        | false :: false :: rest => exact absurd rfl (hnull rest)
        | false :: true :: rest => exact absurd rfl (hundefined rest)
        | true :: false :: rest => exact absurd rfl (hwrite rest)
        | true :: true :: rest => exact absurd rfl (hread rest)

theorem parse_eq_iff {bits : List Bool} : parse c bits = p ↔ p.Fits c ∧ p.bits = bits := by
  constructor
  · rintro rfl
    exact bits_parse c bits
  · rintro ⟨hfits, rfl⟩
    exact parse_bits hfits

end

end SaveChip
