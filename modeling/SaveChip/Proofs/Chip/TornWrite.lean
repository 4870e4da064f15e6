import SaveChip.Proofs.Chip.WordArray
import SaveChip.Proofs.Eeprom.Checked

/-! # Torn writes

A write stores its data bits one by one, as they arrive.  So a write that breaks off leaves a torn
block: the bits that have arrived, and behind them those that were there before (`dataBits_setBits`).
Nothing else in the storage changes, and no register but the count of the bits (`send_torn`).

A reset ends the write and keeps the torn block as it is.  Whoever reads it then finds the new bits and
behind them the old ones (`run_reread`). -/

namespace SaveChip

namespace Storage

variable {s : Storage} {block : Nat}

/-- The data bits of a block, in the order in which they go over the line. -/
def dataBits (s : Storage) (block : Nat) : List Bool := (List.range 64).map (s.bit block)

@[simp] theorem length_dataBits (s : Storage) (block : Nat) : (s.dataBits block).length = 64 := by
  simp [dataBits]

theorem getElem?_dataBits (s : Storage) (block : Nat) {n : Nat} (hn : n < 64) :
    (s.dataBits block)[n]? = some (s.bit block n) := by
  simp [dataBits, hn]

/-- Bits set from the front of a block lie before the rest of its former bits. -/
theorem dataBits_setBits {bits : List Bool} (h : 8 * block + 8 ≤ s.size) (hbits : bits.length ≤ 64) :
    (s.setBits block 0 bits).dataBits block =
      bits ++ (s.dataBits block).drop bits.length := by
  apply List.ext_getElem?
  intro n
  by_cases hn : n < 64
  · rw [getElem?_dataBits _ _ hn, bit_setBits h (by omega) hn]
    by_cases hnew : n < bits.length
    · rw [if_pos ⟨rfl, Nat.zero_le n, by omega⟩, List.getElem?_append_left hnew, Nat.sub_zero,
        List.getD_eq_getElem?_getD, List.getElem?_eq_getElem hnew, Option.getD_some]
    · have hplace : bits.length + (n - bits.length) = n := by omega
      rw [if_neg fun hc => hnew (by omega), List.getElem?_append_right (by omega),
        List.getElem?_drop, hplace, getElem?_dataBits _ _ hn]
  · rw [List.getElem?_eq_none (by simp; omega), List.getElem?_eq_none (by simp; omega)]

end Storage

namespace Eeprom

variable {e : Eeprom}

theorem send_torn (hp : e.phase = .writeData) (hs : e.shifted = 0) (sent : List (UInt64 × Bool))
    (hlength : sent.length ≤ blockBits) :
    e.send sent =
      { e with
        shifted := sent.length
        storage := e.storage.setBits e.block 0 (sent.map Prod.snd) } := by
  rw [send_data hp sent (by omega), hs, Nat.zero_add]

theorem run_reread (h : e.Sound) (hr : e.Resting) (clock : Nat → UInt64)
    (hl : e.Listening (clock 0)) (address : Nat) (trailing : Bool) :
    ((Chip.eeprom e).run ((Transaction.read address trailing).script e.capacity clock)).1 =
      List.replicate (e.capacity.addressBits + 3) .done ++
        (List.replicate 4 false ++
          e.storage.dataBits (e.capacity.blockOf address)).map .bit := by
  obtain ⟨e', hrun, -⟩ := Transaction.run_read h hr hl address trailing
  have hfits := e.capacity.blockOf_fits address
  rw [← h.size] at hfits
  have hbits : ((Transaction.read address trailing).bits e.capacity).length =
      e.capacity.addressBits + 3 := by
    simp [Transaction.bits]
  rw [hrun, Transaction.replies, hbits, Storage.dataBits, Storage.map_bit hfits]

end Eeprom

namespace Chip

/-- **A write that breaks off changes a prefix of its block.**  Let a serial chip have received the
address of a write and none of its data, and send it up to 64 data bits.  The block that the address
names then holds these bits and behind them its former ones, no other byte has changed, and of the
registers only the count of the data bits has moved.  A reset puts the registers into their power-on
state and leaves the torn storage and the dirty flag alone, and a read of the block finds the new bits
and behind them the former ones. -/
theorem torn_reached {c : Capacity} {history : List (UInt64 × Request)} {e : Eeprom}
    (he : reached (.eeprom c) history = eeprom e) (hphase : e.phase = .writeData)
    (hshifted : e.shifted = 0) {sent : List (UInt64 × UInt8)} (hlength : sent.length ≤ 64) :
    let block := e.address.toNat
    let data := sent.map fun x => bitAt x.2 0
    let former := (List.range 64).map fun n =>
      bitAt (e.storage.byte (8 * block + (7 - n / 8))) (7 - n % 8)
    ∃ torn : Eeprom,
      ((eeprom e).run (sent.map fun x => (x.1, .writeBit x.2))).2 = eeprom torn ∧
      torn = { e with shifted := sent.length, storage := torn.storage } ∧
      torn.storage.size = e.storage.size ∧
      (∀ i, i / 8 ≠ block → torn.storage.byte i = e.storage.byte i) ∧
      (∀ n < 64, some (bitAt (torn.storage.byte (8 * block + (7 - n / 8))) (7 - n % 8)) =
        (data ++ former.drop data.length)[n]?) ∧
      ∀ now,
        let restarted : Eeprom :=
          { Eeprom.fresh c with storage := torn.storage, dirty := e.dirty }
        ((eeprom torn).respond now .reset).2 = eeprom restarted ∧
        ∀ address trailing clock, address &&& c.addressMask.toNat = block →
          ((eeprom restarted).run ((Transaction.read address trailing).script c clock)).1 =
            List.replicate (c.addressBits + 3) .done ++
              (List.replicate 4 false ++ (data ++ former.drop data.length)).map .bit := by
  intro block data former
  obtain ⟨hsound, rfl⟩ := sound_of_reached he
  have hfits : 8 * block + 8 ≤ e.storage.size :=
    Eeprom.block_fits hsound (by rw [hphase]; rfl)
  have hdata : data.length ≤ 64 := by
    rw [List.length_map]
    exact hlength
  let torn : Eeprom :=
    { e with shifted := sent.length, storage := e.storage.setBits block 0 data }
  have hrun : ((eeprom e).run (sent.map fun x => (x.1, .writeBit x.2))).2 = eeprom torn := by
    have hsent := Eeprom.send_torn hphase hshifted (sent.map fun x => (x.1, bitAt x.2 0))
      (by rw [List.length_map]; exact hlength)
    rw [List.map_map, List.length_map] at hsent
    rw [run_writeBits]
    exact congrArg eeprom hsent
  have hbits : torn.storage.dataBits block = data ++ former.drop data.length :=
    Storage.dataBits_setBits hfits hdata
  refine ⟨torn, hrun, rfl, Storage.size_setBits .., ?_, ?_, fun now => ⟨rfl, ?_⟩⟩
  · intro i hi
    exact Storage.byte_setBits hfits (by omega) hi
  · intro n hn
    rw [← hbits, Storage.getElem?_dataBits _ _ hn]
    rfl
  · intro address trailing clock haddress
    have hrestarted : Eeprom.Sound
        { Eeprom.fresh e.capacity with storage := torn.storage, dirty := e.dirty } :=
      { size := (Storage.size_setBits ..).trans hsound.size
        registers := (Eeprom.sound_fresh e.capacity).registers }
    have hread := Eeprom.run_reread hrestarted ⟨rfl, rfl⟩ clock (.inl rfl) address trailing
    have hblock : e.capacity.blockOf address = block := haddress
    dsimp only [Eeprom.fresh] at hread ⊢
    rw [hread, hblock, hbits]

/-- Ten data bits of a write to block 3, a reset, and a read of the block under another address. -/
theorem torn_reached_reset :
    let history : List (UInt64 × Request) :=
      ([1, 0] ++ List.replicate 12 0 ++ [1, 1] : List UInt8).map fun value => (0, .writeBit value)
    let sent : List (UInt64 × UInt8) :=
      [(5, 0), (4, 1), (9, 0xFE), (9, 3), (8, 1), (7, 0), (7, 1), (0, 0), (0, 0), (1, 2)]
    let torn := ((reached (.eeprom .large) history).run (sent.map fun x => (x.1, .writeBit x.2))).2
    let restarted := (torn.respond 9 .reset).2
    restarted.dirty = false ∧
      (restarted.run ((Transaction.read 0x403 true).script .large fun _ => 0)).1 =
        List.replicate 17 .done ++
          ([false, false, false, false] ++
            [false, true, false, true, true, false, true, false, false, false] ++
            List.replicate 54 true).map .bit := by
  intro history sent torn restarted
  let addressed : Eeprom :=
    { Eeprom.fresh .large with address := 3, phase := .writeData, command := 2 }
  have haddressed : reached (.eeprom .large) history = eeprom addressed := rfl
  have hlength : sent.length ≤ 64 := by decide
  obtain ⟨torn', htorn, -, -, -, -, hlater⟩ := torn_reached haddressed rfl rfl hlength
  obtain ⟨hreset, hread⟩ := hlater 9
  have hrestarted : restarted = eeprom { Eeprom.fresh .large with storage := torn'.storage } :=
    (congrArg (fun chip => (chip.respond 9 .reset).2) htorn).trans hreset
  refine ⟨congrArg dirty hrestarted, ?_⟩
  rw [hrestarted]
  exact (hread 0x403 true (fun _ => 0) rfl).trans (by decide +kernel)

end Chip

end SaveChip
