import SaveChip.Proofs.Chip.Interleaving

/-! # Whole transfers among other requests

A write and a read from their first bit to the last, with whatever may accompany them in between.
Until the data of a read the line is held (`holds_writing`, `holds_reading`), so other requests
change neither what is written nor where (`write_reached`), nor what is read (`read_reached`). -/

namespace SaveChip

namespace Eeprom

variable {e : Eeprom} {start : UInt64}

/-! ### In the middle of a frame -/

theorem holds_address {reading : Bool} (hp : e.phase = addressPhase reading) (ha : e.address = 0)
    {sent : List (UInt64 × Bool)}
    (hlength : e.received + sent.length < e.addressPhaseBits reading) :
    (e.send sent).Holds false := by
  rw [send_address (n := 0) hp ha sent hlength]
  apply holds_midway
  · cases reading <;> simp [hp, addressPhase]
  · cases reading <;> simp [hp, addressPhase]

theorem holds_write (hp : e.phase = .writeAddress) (hr : e.received = 0) (ha : e.address = 0)
    (hs : e.shifted = 0) {sent : List (UInt64 × Bool)}
    (hlength : sent.length ≤ e.capacity.addressBits + blockBits) :
    (e.send sent).Holds false := by
  by_cases hshort : sent.length < e.capacity.addressBits
  · apply holds_address (show e.phase = addressPhase false from hp) ha
    rw [hr, addressPhaseBits, Bool.toNat_false]
    omega
  · let address := sent.take e.capacity.addressBits
    let data := sent.drop e.capacity.addressBits
    have hsplit : sent = address ++ data := (List.take_append_drop ..).symm
    have haddress : address.length = e.capacity.addressBits := by
      rw [List.length_take]
      omega
    have hdata : e.shifted + data.length ≤ blockBits := by
      rw [hs, List.length_drop]
      omega
    have hphase : (e.send sent).phase = .writeData := by
      rw [hsplit, send_append, send_writeAddress hp hr ha haddress]
      rw [send_data rfl data (by exact hdata)]
    apply holds_midway
    · simp [hphase]
    · simp [hphase]

theorem holds_writing (h : e.Resting) (hs : e.shifted = 0) (hl : e.Listening start) (t' : UInt64)
    {sent : List (UInt64 × Bool)} (hlength : sent.length ≤ e.capacity.addressBits + blockBits) :
    (e.send ((start, true) :: (t', false) :: sent)).Holds false := by
  change ((e.send [(start, true), (t', false)]).send sent).Holds false
  rw [send_command h hl]
  exact holds_write
    (e := { e with ready := true, address := 0, received := 0, command := 2, phase := .writeAddress })
    rfl rfl rfl hs hlength

theorem holds_reading (h : e.Resting) (hl : e.Listening start) (t' : UInt64)
    {sent : List (UInt64 × Bool)} (hlength : sent.length ≤ e.capacity.addressBits) :
    (e.send ((start, true) :: (t', true) :: sent)).Holds false := by
  change ((e.send [(start, true), (t', true)]).send sent).Holds false
  rw [send_command h hl]
  apply holds_address (show Phase.readAddress = addressPhase true from rfl) rfl
  dsimp only [addressPhaseBits]
  rw [Bool.toNat_true]
  omega

/-! ### The levels of a block -/

theorem lineBit_lead {n : Nat} (h : n < 4) : e.lineBit n = false := if_pos h

theorem lineBit_data (e : Eeprom) (n : Nat) : e.lineBit (4 + n) = e.storage.bit e.block n := by
  have hdata : ¬4 + n < leadBits := Nat.not_lt.mpr (Nat.le_add_right 4 n)
  rw [lineBit, if_neg hdata, leadBits, Nat.add_sub_cancel_left]

end Eeprom

namespace Chip

/-! ### Writes -/

/-- **A write among other requests.**  Two command bits, an address, 64 data bits and one last bit
store the data bits in the block that the address names and change no other byte.  They leave the
chip idle, marked as changed, and busy for its time from the last bit on, whatever comes between the
first bit and the last and whatever the clock shows meanwhile.  A read of the line among them finds
the chip ready between the command bits, and zero after them. -/
theorem write_reached {c : Capacity} {history : List (UInt64 × Request)} {e : Eeprom}
    (he : reached (.eeprom c) history = eeprom e) (hphase : e.phase = .idle)
    (hreceived : e.received = 0) {start finish : UInt64}
    (hlistening : e.ready = true ∨ e.deadline ≤ start) {address data : List Bool}
    {terminator : Bool} (haddress : address.length = c.addressBits) (hdata : data.length = 64)
    {script : List (UInt64 × Request)}
    (hscript : Sends (true :: false :: (address ++ data ++ [terminator])) start finish script) :
    let block := shiftBits 0 address &&& c.addressMask.toNat
    ∃ written : Eeprom,
      ((eeprom e).run script).2 = eeprom written ∧
      written.phase = .idle ∧ written.ready = false ∧ written.received = 0 ∧
      written.shifted = 0 ∧ written.command = 2 ∧ written.address.toNat = block ∧
      written.deadline.toNat = min (finish.toNat + 0x1A750) 0xFFFFFFFFFFFFFFFF ∧
      written.dirty = true ∧ written.capacity = c ∧ written.storage.size = e.storage.size ∧
      (∀ n < 64, some (bitAt (written.storage.byte (8 * block + (7 - n / 8))) (7 - n % 8)) =
        data[n]?) ∧
      (∀ i, i / 8 ≠ block → written.storage.byte i = e.storage.byte i) ∧
      ∀ before now after, script = before ++ (now, .readBit) :: after →
        ((eeprom e).run script).1[before.length]? =
          some (.bit (decide ((sentBits before).length = 1))) := by
  intro block
  obtain ⟨hsound, rfl⟩ := sound_of_reached he
  have hrest : e.Resting := ⟨hphase, hreceived⟩
  have hshifted : e.shifted = 0 := hrest.shifted hsound
  have hfits : 8 * block + 8 ≤ e.storage.size := Eeprom.named_fits hsound address
  obtain ⟨hrun, hreplies⟩ := hscript.run hrest hlistening fun t' sent hlength =>
    Eeprom.holds_writing hrest hshifted hlistening t' (by
      rw [List.length_append, haddress, hdata] at hlength
      exact hlength)
  obtain ⟨t', sent, hbits, hsent⟩ := hscript.sentBits_eq
  obtain ⟨addressSent, dataSent, rfl, rfl, rfl⟩ := List.map_eq_append_iff.mp hsent
  rw [List.length_map] at haddress hdata
  rw [hbits, List.append_assoc,
    Eeprom.send_write hrest hshifted hlistening t' haddress hdata finish terminator] at hrun
  have hlength : (dataSent.map Prod.snd).length = 64 := by rw [List.length_map, hdata]
  have hwhole : 0 + (dataSent.map Prod.snd).length ≤ 64 := by omega
  refine ⟨_, hrun, rfl, rfl, rfl, hshifted, rfl, Eeprom.block_eq .., toNat_busyUntil finish, rfl,
    rfl, Storage.size_setBits .., ?_, ?_, hreplies⟩
  · intro n hn
    have hbit := Storage.bit_setBits hfits hwhole hn block
    have hindex : n < (dataSent.map Prod.snd).length := by omega
    rw [if_pos ⟨rfl, Nat.zero_le n, by omega⟩, Nat.sub_zero, List.getD_eq_getElem?_getD,
      List.getElem?_eq_getElem hindex] at hbit
    rw [List.getElem?_eq_getElem hindex]
    exact congrArg some hbit
  · intro i hi
    exact Storage.byte_setBits hfits hwhole hi

/-- A write to the last block, with polls between its bits and a clock that goes back. -/
theorem write_reached_polled :
    let data := msbFirst 64 0x0123456789ABCDEF
    let script : List (UInt64 × Request) :=
      [(5, .writeBit 0xFF), (0, .readBit), (3, .writeBit 0xFE), (9, .readBit), (4, .poke 1 2)] ++
        (List.replicate 6 true ++ data).map (fun b => (7, .bit b)) ++
        [(6, .snapshot), (2, .writeBit 1)]
    let answered := (fresh (.eeprom .small)).run script
    answered.1[1]? = some (.bit true) ∧ answered.1[3]? = some (.bit false) ∧
      ∃ written : Eeprom, answered.2 = eeprom written ∧ written.deadline.toNat = 108370 ∧
        bitAt (written.storage.byte 511) 1 = false ∧ bitAt (written.storage.byte 511) 0 = true ∧
        written.storage.byte 503 = 0xFF := by
  intro data script answered
  have hfresh : reached (.eeprom .small) [] = eeprom (.fresh .small) := rfl
  have hscript : Sends (true :: false :: (List.replicate 6 true ++ data ++ [true])) 5 2 script :=
    { accompanied := by decide
      sent := rfl
      first := ⟨0xFF, rfl⟩
      last := ⟨1, rfl⟩ }
  obtain ⟨written, hrun, -, -, -, -, -, -, hdeadline, -, -, -, hdata, hothers, hreplies⟩ :=
    write_reached hfresh rfl rfl (.inl rfl) rfl rfl hscript
  have hblock : shiftBits 0 (List.replicate 6 true) &&& Capacity.small.addressMask.toNat = 63 := by
    decide
  have hother := hothers 503 (by rw [hblock]; decide)
  have hdata₆ := hdata 6 (by decide)
  have hdata₇ := hdata 7 (by decide)
  rw [hblock] at hdata₆ hdata₇
  refine ⟨hreplies (script.take 1) 0 (script.drop 2) rfl,
    hreplies (script.take 3) 9 (script.drop 4) rfl, written, hrun,
    hdeadline.trans (by decide), ?_, ?_, ?_⟩
  · exact Option.some.inj (hdata₆.trans (by decide))
  · exact Option.some.inj (hdata₇.trans (by decide))
  · rw [hother]
    decide +kernel

/-! ### Reads -/

/-- **A read among other requests.**  Two command bits, an address and one more bit select a block;
a read of the line among them finds the chip ready between the command bits, and zero after them.
The next 68 reads of the line answer four zeros and the data bits of the block, whatever comes between
them.  They leave the chip idle and ready, with the storage, the dirty flag and the deadline it had,
and the next two bits are a command, at whatever time they come. -/
theorem read_reached {c : Capacity} {history : List (UInt64 × Request)} {e : Eeprom}
    (he : reached (.eeprom c) history = eeprom e) (hphase : e.phase = .idle)
    (hreceived : e.received = 0) {start finish : UInt64}
    (hlistening : e.ready = true ∨ e.deadline ≤ start) {address : List Bool} {trailing : Bool}
    (haddress : address.length = c.addressBits) {opening reading : List (UInt64 × Request)}
    (hopening : Sends (true :: true :: (address ++ [trailing])) start finish opening)
    (hreading : Reads 68 reading) :
    let block := shiftBits 0 address &&& c.addressMask.toNat
    let opened := ((eeprom e).run opening).2
    let read : Eeprom :=
      { e with
        ready := true
        received := 0
        shifted := 0
        address := UInt32.ofNat block
        phase := .idle
        command := 3 }
    (∀ before now after, opening = before ++ (now, .readBit) :: after →
      ((eeprom e).run opening).1[before.length]? =
        some (.bit (decide ((sentBits before).length = 1)))) ∧
      (∀ before now after, reading = before ++ (now, .readBit) :: after →
        ((readTimes before).length < 4 →
          (opened.run reading).1[before.length]? = some (.bit false)) ∧
        ∀ n, (readTimes before).length = 4 + n →
          (opened.run reading).1[before.length]? =
            some (.bit (bitAt (e.storage.byte (8 * block + (7 - n / 8))) (7 - n % 8)))) ∧
      (opened.run reading).2 = eeprom read ∧
      ∀ t t' value value',
        ((eeprom read).run [(t, .writeBit value), (t', .writeBit value')]).2 =
          eeprom { read with
            address := 0
            command := 2 * (bitAt value 0).toNat + (bitAt value' 0).toNat
            phase := .ofCommand (2 * (bitAt value 0).toNat + (bitAt value' 0).toNat) } := by
  intro block opened read
  obtain ⟨hsound, rfl⟩ := sound_of_reached he
  have hrest : e.Resting := ⟨hphase, hreceived⟩
  have hshifted : e.shifted = 0 := hrest.shifted hsound
  obtain ⟨hrun, hpolls⟩ := hopening.run hrest hlistening fun t' sent hlength =>
    Eeprom.holds_reading hrest hlistening t' (haddress ▸ hlength)
  obtain ⟨t', sent, hbits, rfl⟩ := hopening.sentBits_eq
  rw [List.length_map] at haddress
  let selected : Eeprom :=
    { e with
      ready := true
      received := 0
      address := UInt32.ofNat block
      phase := .readData
      command := 3 }
  have hopened : opened = eeprom selected := by
    rw [hbits, Eeprom.send_read hrest hlistening t' haddress finish trailing] at hrun
    exact hrun
  have hblock : selected.block = block := Eeprom.block_eq ..
  obtain ⟨hend, hbits⟩ := Reads.run (e := selected) hreading rfl hshifted
  rw [hopened]
  refine ⟨hpolls, ?_, hend, ?_⟩
  · intro before now after hscript
    rw [hbits before now after hscript]
    constructor
    · intro hlead
      rw [Eeprom.lineBit_lead hlead]
    · intro n hn
      rw [hn, Eeprom.lineBit_data, hblock]
      rfl
  · intro t t' value value'
    exact congrArg eeprom (Eeprom.send_command (e := read) ⟨rfl, rfl⟩ (.inl rfl) t' _ _)

/-- A read of the first block, with bits between the reads of the line that the chip does not take. -/
theorem read_reached_disturbed :
    let opening : List (UInt64 × Request) :=
      [(9, .writeBit 1), (3, .readBit), (8, .writeBit 0xFF), (0, .readBit)] ++
        List.replicate 7 (7, .writeBit 0)
    let reading : List (UInt64 × Request) :=
      (5, .writeBit 1) :: (List.replicate 67 (6, .readBit) ++ [(0, .writeBit 0), (4, .readBit)])
    let opened := (reached (.eeprom .small) [(0, .loadFile [0xFE])]).run opening
    let answered := opened.2.run reading
    opened.1[1]? = some (.bit true) ∧ opened.1[3]? = some (.bit false) ∧
      answered.1[4]? = some (.bit false) ∧ answered.1[5]? = some (.bit true) ∧
      answered.1[69]? = some (.bit false) ∧
      ∃ e : Eeprom, answered.2 = eeprom e ∧ e.phase = .idle ∧ e.ready = true ∧ e.command = 3 := by
  intro opening reading opened answered
  have hopening : Sends (true :: true :: (List.replicate 6 false ++ [false])) 9 7 opening :=
    { accompanied := by decide
      sent := rfl
      first := ⟨1, rfl⟩
      last := ⟨0, rfl⟩ }
  have hreading : Reads 68 reading :=
    { accompanied := by decide
      count := rfl
      last := ⟨4, rfl⟩ }
  have hloaded : reached (.eeprom .small) [(0, .loadFile [0xFE])] =
      eeprom ((Eeprom.fresh .small).loadFile [0xFE]) := rfl
  obtain ⟨hpolls, hbits, hend, -⟩ :=
    read_reached hloaded rfl rfl (.inl rfl) rfl hopening hreading
  have hlead := (hbits (reading.take 4) 6 (reading.drop 5) rfl).1 (by decide)
  have hfirst := (hbits (reading.take 5) 6 (reading.drop 6) rfl).2 0 rfl
  have hlast := (hbits (reading.take 69) 4 [] rfl).2 63 rfl
  exact ⟨hpolls (opening.take 1) 3 (opening.drop 2) rfl,
    hpolls (opening.take 3) 0 (opening.drop 4) rfl, hlead, hfirst.trans (by decide +kernel),
    hlast.trans (by decide +kernel), _, hend, rfl, rfl, rfl⟩

end Chip

end SaveChip
