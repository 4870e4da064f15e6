import SaveChip.Proofs.Chip.Parsing
import SaveChip.Proofs.Eeprom.Checked

/-! # Writes stay in the block that they name

Whatever a game does to a serial chip, however it breaks off its transfers and whatever it sends in
between, the storage changes one bit at a time, and only while data bits of a write arrive
(`storage_respond`).  The block that they go to is the one whose address arrived last: the address
register follows the bits on the line as long as they arrive (`Tracks`), and nothing moves it
between the last address bit and the last data bit.

So a run leaves every block alone that is not named by a write address which it completes
(`byte_run`).  `Chip.namedBlocks` reads these blocks off the line: it collects the bits that are
sent in the phase of a write address and looks at no other register. -/

namespace SaveChip

/-- The host puts contents of its own into the storage. -/
def Request.bringsContents : Request → Bool
  | loadFile _ | restore _ | loadFrom _ => true
  | _ => false

namespace Eeprom

variable {e : Eeprom} {bits : List Bool} {now : UInt64} {request : Request}

/-! ### What a request can do -/

/-- The bits of a write address that have arrived once a request is answered. -/
def addressSoFar (e : Eeprom) (bits : List Bool) : Request → List Bool
  | .writeBit value => if e.phase = .writeAddress then bits ++ [bitAt value 0] else []
  | .reset => []
  | _ => bits

/-- A request that brings in no contents uses the line, or resets the chip, or leaves all of it but
the dirty flag alone. -/
theorem respond_cases (e : Eeprom) (hquiet : request.bringsContents = false) (now : UInt64) :
    (∃ value, request = .writeBit value ∧
        ((Chip.eeprom e).respond now request).2 = .eeprom (e.clockIn now (bitAt value 0))) ∨
      (request = .readBit ∧ ((Chip.eeprom e).respond now request).2 = .eeprom (e.clockOut now)) ∨
      (request = .reset ∧ ((Chip.eeprom e).respond now request).2 = .eeprom e.reset) ∨
      ((∀ bits, e.addressSoFar bits request = bits) ∧
        ∃ dirty, ((Chip.eeprom e).respond now request).2 = .eeprom { e with dirty := dirty }) := by
  cases request with
  | writeBit value => exact .inl ⟨value, rfl, rfl⟩
  | readBit => exact .inr (.inl ⟨rfl, rfl⟩)
  | reset => exact .inr (.inr (.inl ⟨rfl, rfl⟩))
  | takeDirty => exact .inr (.inr (.inr ⟨fun _ => rfl, false, rfl⟩))
  | loadFile | restore | loadFrom => cases hquiet
  | _ => exact .inr (.inr (.inr ⟨fun _ => rfl, e.dirty, rfl⟩))

/-! ### The storage -/

theorem storage_clockIn (e : Eeprom) (now : UInt64) (bit : Bool) :
    (e.clockIn now bit).storage =
      if e.phase = .writeData ∧ e.shifted < blockBits then
        e.storage.setBit e.block e.shifted bit
      else
        e.storage := by
  by_cases hp : e.phase = .writeData
  · rw [clockIn_writeData hp]
    by_cases hlast : e.shifted = blockBits
    · rw [shiftIn_last hlast, if_neg (by omega)]
    · rw [shiftIn_more hlast]
      simp only [hp, true_and]
  · obtain ⟨regs, hsame, -⟩ := clockIn_registers hp now bit
    rw [hsame, if_neg fun hc => hp hc.1]

theorem storage_clockOut (e : Eeprom) (now : UInt64) : (e.clockOut now).storage = e.storage := by
  obtain ⟨regs, hsame, -⟩ := e.clockOut_registers now
  rw [hsame]

/-- **A request changes at most one bit**, and one that it sends to the block being written. -/
theorem storage_respond (e : Eeprom) (hquiet : request.bringsContents = false) (now : UInt64) :
    ∃ e', ((Chip.eeprom e).respond now request).2 = .eeprom e' ∧
      (e'.storage = e.storage ∨
        ∃ value, request = .writeBit value ∧ e.phase = .writeData ∧ e.shifted < blockBits ∧
          e'.storage = e.storage.setBit e.block e.shifted (bitAt value 0)) := by
  obtain ⟨value, hrequest, hafter⟩ | ⟨-, hafter⟩ | ⟨-, hafter⟩ | ⟨-, dirty, hafter⟩ :=
    e.respond_cases hquiet now
  · refine ⟨_, hafter, ?_⟩
    rw [storage_clockIn]
    split
    · rename_i hdata
      exact .inr ⟨value, hrequest, hdata.1, hdata.2, rfl⟩
    · exact .inl rfl
  · exact ⟨_, hafter, .inl (storage_clockOut e now)⟩
  · exact ⟨_, hafter, .inl rfl⟩
  · exact ⟨_, hafter, .inl rfl⟩

/-! ### The address register -/

/-- The address register holds the bits of a write address that have arrived, and there are none in
another phase. -/
def Tracks (e : Eeprom) (bits : List Bool) : Prop :=
  if e.phase = .writeAddress then
    e.received = bits.length ∧ e.address = UInt32.ofNat (2 * shiftBits 0 bits)
  else
    bits = []

theorem tracks_nil (hp : e.phase ≠ .writeAddress) : e.Tracks [] := by
  unfold Tracks
  rw [if_neg hp]

theorem Tracks.eq_nil (h : e.Tracks bits) (hp : e.phase ≠ .writeAddress) : bits = [] := by
  unfold Tracks at h
  rwa [if_neg hp] at h

theorem Tracks.length_lt (ht : e.Tracks bits) (h : e.Sound) :
    bits.length < e.capacity.addressBits := by
  unfold Tracks at ht
  split at ht
  · rename_i hp
    have hroom : e.received < e.capacity.addressBits := (h.inPhase hp).1
    omega
  · rw [ht]
    cases e.capacity <;> decide

theorem tracks_of_clear (hreceived : e.received = 0) (haddress : e.address = 0) : e.Tracks [] := by
  unfold Tracks
  split
  · exact ⟨hreceived, haddress⟩
  · rfl

theorem clockIn_outside (hp : e.phase ≠ .writeAddress) (now : UInt64) (bit : Bool) :
    (e.clockIn now bit).Tracks [] ∧
      ((e.clockIn now bit).phase = .writeData →
        e.phase = .writeData ∧ (e.clockIn now bit).block = e.block) := by
  unfold clockIn
  cases hphase : e.phase with
  | writeAddress => exact absurd hphase hp
  | idle =>
      dsimp only
      unfold decode
      rw [settle_eq]
      dsimp only
      split
      · exact ⟨tracks_nil (by simp [hphase]), by simp [hphase]⟩
      · split
        · exact ⟨tracks_nil (by simp [hphase]), by simp [hphase]⟩
        · exact ⟨tracks_of_clear rfl rfl, fun h => absurd h.symm (Phase.ne_ofCommand rfl _)⟩
  | readAddress =>
      dsimp only
      unfold shiftAddress
      split
      · exact ⟨tracks_nil hp, by simp [hphase]⟩
      · split
        · exact ⟨tracks_nil (by simp [dataPhase]), by simp [dataPhase]⟩
        · exact ⟨tracks_nil (by simp [hphase]), by simp [hphase]⟩
  | writeData =>
      dsimp only
      by_cases hlast : e.shifted = blockBits
      · rw [shiftIn_last hlast]
        exact ⟨tracks_nil (by simp), by simp⟩
      · rw [shiftIn_more hlast]
        exact ⟨tracks_nil (by simp [hphase]), fun _ => ⟨rfl, rfl⟩⟩
  | readData | invalid => exact ⟨tracks_nil hp, by simp [hphase]⟩

theorem Tracks.clockIn (ht : e.Tracks bits) (h : e.Sound) (hp : e.phase = .writeAddress)
    (now : UInt64) (bit : Bool) :
    if (bits ++ [bit]).length = e.capacity.addressBits then
      (e.clockIn now bit).phase = .writeData ∧
        (e.clockIn now bit).block = e.capacity.blockOf (shiftBits 0 (bits ++ [bit]))
    else
      (e.clockIn now bit).phase = .writeAddress ∧ (e.clockIn now bit).Tracks (bits ++ [bit]) := by
  unfold Tracks at ht
  rw [if_pos hp] at ht
  obtain ⟨hreceived, haddress⟩ := ht
  have hshift : shiftBits 0 (bits ++ [bit]) = 2 * shiftBits 0 bits + bit.toNat :=
    shiftBits_append ..
  have hroom : e.received < e.capacity.addressBits := (h.inPhase hp).1
  rw [List.length_append, List.length_singleton, ← hreceived]
  by_cases hlast : e.received + 1 = e.capacity.addressBits
  · rw [if_pos hlast, clockIn_lastAddress hp hlast haddress, hshift]
    exact ⟨rfl, block_eq ..⟩
  · have hmore : e.received + 1 < e.addressPhaseBits false := Nat.lt_of_le_of_ne hroom hlast
    rw [if_neg hlast, clockIn_address (show e.phase = addressPhase false from hp),
      shiftAddress_more hmore, shiftedAddress, if_pos hroom, haddress, double_or_shiftLeft]
    refine ⟨hp, ?_⟩
    unfold Tracks
    rw [if_pos hp, hshift, List.length_append, List.length_singleton, ← hreceived]
    exact ⟨rfl, rfl⟩

theorem clockOut_outside (e : Eeprom) (now : UInt64) :
    e.clockOut now = e ∨
      (e.phase ≠ .writeAddress ∧ (e.clockOut now).phase ≠ .writeAddress ∧
        (e.clockOut now).phase ≠ .writeData) := by
  unfold clockOut
  cases hphase : e.phase with
  | idle =>
      dsimp only
      rw [settle_eq]
      exact .inr ⟨nofun, by simp [hphase], by simp [hphase]⟩
  | readData =>
      dsimp only
      by_cases hlast : e.shifted + 1 = leadBits + blockBits
      · rw [shiftOut_last hlast]
        exact .inr ⟨nofun, nofun, nofun⟩
      · rw [shiftOut_more hlast]
        exact .inr ⟨nofun, by simp [hphase], by simp [hphase]⟩
  | writeData | invalid | writeAddress | readAddress => exact .inl rfl

/-- What a request does to the bits of a write address and to the block that is being written. -/
theorem Tracks.respond (ht : e.Tracks bits) (h : e.Sound) (hquiet : request.bringsContents = false)
    (now : UInt64) :
    ∃ e', ((Chip.eeprom e).respond now request).2 = .eeprom e' ∧
      if (e.addressSoFar bits request).length = e.capacity.addressBits then
        e'.Tracks [] ∧ e'.phase = .writeData ∧
          e'.block = e.capacity.blockOf (shiftBits 0 (e.addressSoFar bits request))
      else
        e'.Tracks (e.addressSoFar bits request) ∧
          (e'.phase = .writeData → e.phase = .writeData ∧ e'.block = e.block) := by
  have hnone : ([] : List Bool).length ≠ e.capacity.addressBits := by
    cases e.capacity <;> exact nofun
  have hopen : bits.length ≠ e.capacity.addressBits := Nat.ne_of_lt (ht.length_lt h)
  obtain ⟨value, rfl, hafter⟩ | ⟨rfl, hafter⟩ | ⟨rfl, hafter⟩ | ⟨hsame, dirty, hafter⟩ :=
    e.respond_cases hquiet now
  · refine ⟨_, hafter, ?_⟩
    by_cases hp : e.phase = .writeAddress
    · have hsofar : e.addressSoFar bits (.writeBit value) = bits ++ [bitAt value 0] := if_pos hp
      have hstep := ht.clockIn h hp now (bitAt value 0)
      rw [hsofar]
      by_cases hlast : (bits ++ [bitAt value 0]).length = e.capacity.addressBits
      · rw [if_pos hlast] at hstep ⊢
        exact ⟨tracks_nil (by rw [hstep.1]; nofun), hstep⟩
      · rw [if_neg hlast] at hstep ⊢
        refine ⟨hstep.2, fun hdata => ?_⟩
        rw [hstep.1] at hdata
        cases hdata
    · have hsofar : e.addressSoFar bits (.writeBit value) = [] := if_neg hp
      rw [hsofar, if_neg hnone]
      exact clockIn_outside hp now _
  · refine ⟨_, hafter, ?_⟩
    have hsofar : e.addressSoFar bits .readBit = bits := rfl
    rw [hsofar, if_neg hopen]
    obtain hstill | ⟨hp, haddress, hdata⟩ := e.clockOut_outside now
    · rw [hstill]
      exact ⟨ht, fun hp => ⟨hp, rfl⟩⟩
    · rw [ht.eq_nil hp]
      exact ⟨tracks_nil haddress, fun hopened => absurd hopened hdata⟩
  · have hsofar : e.addressSoFar bits .reset = [] := rfl
    refine ⟨_, hafter, ?_⟩
    rw [hsofar, if_neg hnone]
    exact ⟨tracks_nil nofun, nofun⟩
  · refine ⟨_, hafter, ?_⟩
    rw [hsame, if_neg hopen]
    exact ⟨ht, fun hp => ⟨hp, rfl⟩⟩

end Eeprom

/-! ### Runs -/

namespace Chip

variable {e : Eeprom} {bits : List Bool} {now : UInt64} {request : Request}

/-- The blocks that are named by the write addresses which a run completes.  The bits of an address
are those that are sent while the chip receives one, and they are enough when there are as many as
an address has. -/
def namedBlocks (c : Chip) (bits : List Bool) : List (UInt64 × Request) → List Nat
  | [] => []
  | (now, request) :: rest =>
      match c with
      | eeprom e =>
          let sofar := e.addressSoFar bits request
          let later := (c.respond now request).2
          if sofar.length = e.capacity.addressBits then
            e.capacity.blockOf (shiftBits 0 sofar) :: later.namedBlocks [] rest
          else
            later.namedBlocks sofar rest
      | absent | sram _ => []

theorem place_respond (h : e.Sound) (hquiet : request.bringsContents = false) (now : UInt64) :
    ∃ e', ((eeprom e).respond now request).2 = eeprom e' ∧ e'.storage.size = e.storage.size ∧
      ∀ i k, k < 8 → bitAt (e'.storage.byte i) k ≠ bitAt (e.storage.byte i) k →
        (∃ value, request = .writeBit value) ∧ e.phase = .writeData ∧ e.shifted < 64 ∧
          i / 8 = e.block ∧ i = Storage.byteIndex e.block e.shifted ∧
          k = Storage.bitPlace e.shifted := by
  obtain ⟨e', hafter, hsame | ⟨value, hrequest, hp, hshifted, hset⟩⟩ := e.storage_respond hquiet now
  · refine ⟨e', hafter, congrArg Storage.size hsame, fun i k _ hdiffers => ?_⟩
    rw [hsame] at hdiffers
    exact absurd rfl hdiffers
  · have hindex := Eeprom.byteIndex_lt h (by rw [hp]; rfl) e.shifted
    refine ⟨e', hafter, by rw [hset, Storage.size_setBit], fun i k hk hdiffers => ?_⟩
    rw [hset, Storage.bitAt_setBit hindex _ _ hk] at hdiffers
    by_cases hplace : i = Storage.byteIndex e.block e.shifted ∧ k = Storage.bitPlace e.shifted
    · obtain ⟨rfl, rfl⟩ := hplace
      exact ⟨⟨value, hrequest⟩, hp, hshifted, Storage.byteIndex_div hshifted _, rfl, rfl⟩
    · rw [if_neg hplace] at hdiffers
      exact absurd rfl hdiffers

theorem byte_respond (h : e.Sound) {i : Nat} (houtside : e.phase = .writeData → i / 8 ≠ e.block)
    (hquiet : request.bringsContents = false) (now : UInt64) {e' : Eeprom}
    (hafter : ((eeprom e).respond now request).2 = eeprom e') :
    e'.storage.byte i = e.storage.byte i := by
  obtain ⟨e'', hafter', hsame | ⟨value, -, hp, hshifted, hset⟩⟩ := e.storage_respond hquiet now
  all_goals cases hafter.symm.trans hafter'
  · rw [hsame]
  · have hindex := Eeprom.byteIndex_lt h (by rw [hp]; rfl) e.shifted
    have hother : i ≠ Storage.byteIndex e.block e.shifted := by
      intro hi
      apply houtside hp
      rw [hi, Storage.byteIndex_div hshifted]
    rw [hset, Storage.setBit, Storage.byte_setByte hindex, if_neg hother]

/-- **A byte changes only if a write address names its block**: the one that is open at the start, or
one that the run completes. -/
theorem byte_run (h : e.Sound) (ht : e.Tracks bits) {i : Nat}
    (houtside : e.phase = .writeData → i / 8 ≠ e.block) {script : List (UInt64 × Request)}
    (hquiet : ∀ x ∈ script, x.2.bringsContents = false)
    (hunnamed : i / 8 ∉ (eeprom e).namedBlocks bits script) :
    ∃ e', ((eeprom e).run script).2 = eeprom e' ∧ e'.storage.byte i = e.storage.byte i := by
  induction script generalizing e bits with
  | nil => exact ⟨e, rfl, rfl⟩
  | cons x script ih =>
      obtain ⟨now, request⟩ := x
      obtain ⟨hfirst, hrest⟩ := List.forall_mem_cons.mp hquiet
      obtain ⟨e', hafter, hstep⟩ := ht.respond h hfirst now
      have hbyte := byte_respond h houtside hfirst now hafter
      have hsound : (eeprom e').Sound := hafter ▸ Sound.respond (c := eeprom e) h now request
      simp only [namedBlocks, hafter] at hunnamed
      rw [run, hafter]
      -- the block that is open after the request is a new name, or it was open before
      by_cases hwhole : (e.addressSoFar bits request).length = e.capacity.addressBits
      · rw [if_pos hwhole] at hstep hunnamed
        obtain ⟨ht', -, hblock⟩ := hstep
        have hname : i / 8 ≠ e.capacity.blockOf _ := fun h => hunnamed (h ▸ List.mem_cons_self)
        have hlater := fun h => hunnamed (List.mem_cons_of_mem _ h)
        have houtside' : e'.phase = .writeData → i / 8 ≠ e'.block := fun _ => by
          rw [hblock]
          exact hname
        obtain ⟨e'', hrun, hkept⟩ := ih hsound ht' houtside' hrest hlater
        exact ⟨e'', hrun, hkept.trans hbyte⟩
      · rw [if_neg hwhole] at hstep hunnamed
        obtain ⟨ht', hopen⟩ := hstep
        have houtside' : e'.phase = .writeData → i / 8 ≠ e'.block := fun hp => by
          obtain ⟨hp₀, hblock⟩ := hopen hp
          rw [hblock]
          exact houtside hp₀
        obtain ⟨e'', hrun, hkept⟩ := ih hsound ht' houtside' hrest hunnamed
        exact ⟨e'', hrun, hkept.trans hbyte⟩

/-- **No stray writes.**  Let a serial chip be in any state that occurs, and let a game do with it
what it likes.  No request changes more than one place of one byte, and one does only if it sends a
data bit of a write: the place is that of the bit in the block whose address the chip holds.  If no
write is under way at the start, every byte outside the blocks that are named by the write addresses
of the run is at the end what it was. -/
theorem confined_reached {c : Capacity} {history : List (UInt64 × Request)} {e : Eeprom}
    (he : reached (.eeprom c) history = eeprom e) {script : List (UInt64 × Request)}
    (hquiet : ∀ x ∈ script, x.2.bringsContents = false) :
    (∀ before now request after, script = before ++ (now, request) :: after →
      ∃ e₁ e₂, ((eeprom e).run before).2 = eeprom e₁ ∧
        ((eeprom e₁).respond now request).2 = eeprom e₂ ∧ e₂.storage.size = e₁.storage.size ∧
        ∀ i k, k < 8 → bitAt (e₂.storage.byte i) k ≠ bitAt (e₁.storage.byte i) k →
          (∃ value, request = .writeBit value) ∧ e₁.phase = .writeData ∧ e₁.shifted < 64 ∧
            i / 8 = e₁.address.toNat ∧ i = Storage.byteIndex e₁.block e₁.shifted ∧
            k = Storage.bitPlace e₁.shifted) ∧
      (e.phase ≠ .writeAddress → e.phase ≠ .writeData →
        ∃ e', ((eeprom e).run script).2 = eeprom e' ∧ e'.storage.size = e.storage.size ∧
          ∀ i, i / 8 ∉ (eeprom e).namedBlocks [] script →
            e'.storage.byte i = e.storage.byte i) := by
  have hsound : e.Sound := by
    have hreached := sound_reached (.eeprom c) history
    rwa [he] at hreached
  constructor
  · rintro before now request after rfl
    obtain ⟨e₁, hbefore, hsound₁, -⟩ := exists_run_eeprom hsound before
    have hrequest := hquiet (now, request) (by simp)
    obtain ⟨e₂, hafter, hsize, hplace⟩ := place_respond hsound₁ hrequest now
    exact ⟨e₁, e₂, hbefore, hafter, hsize, hplace⟩
  · intro haddress hdata
    have houtside (i : Nat) : e.phase = .writeData → i / 8 ≠ e.block := fun hp => absurd hp hdata
    obtain ⟨e', hrun, hsound', hcapacity⟩ := exists_run_eeprom hsound script
    refine ⟨e', hrun, ?_, fun i hunnamed => ?_⟩
    · rw [hsound'.size, hsound.size, hcapacity]
    · obtain ⟨e'', hrun', hkept⟩ :=
        byte_run hsound (Eeprom.tracks_nil haddress) (houtside i) hquiet hunnamed
      cases hrun.symm.trans hrun'
      exact hkept

/-- A write that is broken off in its address by a reset, then one to block 3 with a poll before its
data bits. -/
theorem confined_reached_interrupted :
    let brokenOff : List (UInt64 × Request) :=
      [(0, .writeBit 1), (0, .writeBit 0), (1, .writeBit 1), (1, .writeBit 1), (2, .reset)]
    let toBlock : List (UInt64 × Request) :=
      ([1, 0, 0, 0, 0, 0, 1, 1] : List UInt8).map fun bit => (3, .writeBit bit)
    let toData : List (UInt64 × Request) :=
      [(4, .readBit), (9, .writeBit 0), (5, .write .word 24 0), (7, .writeBit 0)]
    let script := brokenOff ++ toBlock ++ toData
    (fresh (.eeprom .small)).namedBlocks [] script = [3] ∧
      ∃ e, ((fresh (.eeprom .small)).run script).2 = eeprom e ∧ e.phase = .writeData ∧
        e.storage.byte 31 = 0x3F ∧
        ∀ i, i / 8 ≠ 3 → e.storage.byte i = (Eeprom.fresh .small).storage.byte i := by
  intro brokenOff toBlock toData script
  have hnamed : (fresh (.eeprom .small)).namedBlocks [] script = [3] := by decide +kernel
  have hquiet : ∀ x ∈ script, x.2.bringsContents = false := by decide
  have hwritten : ∃ e, ((fresh (.eeprom .small)).run script).2 = eeprom e ∧
      e.phase = .writeData ∧ e.storage.byte 31 = 0x3F :=
    ⟨_, rfl, by decide +kernel, by decide +kernel⟩
  obtain ⟨e, hrun, hphase, hbyte⟩ := hwritten
  have hfresh : reached (.eeprom .small) [] = eeprom (.fresh .small) := rfl
  obtain ⟨-, hconfined⟩ := confined_reached hfresh hquiet
  obtain ⟨e', hrun', -, hkept⟩ := hconfined nofun nofun
  cases hrun.symm.trans hrun'
  refine ⟨hnamed, e, hrun, hphase, hbyte, fun i hother => hkept i ?_⟩
  rw [← fresh, hnamed]
  simpa using hother

end Chip

end SaveChip
