import Mathlib
import StackMachine.Native.Memory

/-!
# Guarded memory

A mapping is an array of bytes behind two guards: a write has to lie in the mapping, and the mapping has to be writable.
The host is taken to refuse no change of protection.

* A new mapping has the least number of whole pages (`isLeast_pageAligned`), which is what masking the low bits of a
  word leaves (`ofNat_pageAligned`).
* A write changes the bytes that it covers and no others (`byteAt_write`).
* `Becomes`: what a mapping has come to after stores and changes of protection.  An access makes the stores that its
  reply tells of (`access_becomes`), and so does a run of accesses (`accessAll_becomes`).
* `allocate_guards`: what holds after any run of accesses to a new mapping.
-/

namespace StackMachine.Native.Memory

variable {m m' m'' : Memory}

/-! ### Whole pages -/

theorem isLeast_pageAligned (size : Nat) : IsLeast {n | 4096 ∣ n ∧ size ≤ n} (pageAligned size) := by
  unfold pageAligned pageSize
  refine ⟨⟨Nat.dvd_mul_left _ _, by omega⟩, ?_⟩
  rintro n ⟨⟨pages, rfl⟩, hsize⟩
  omega

theorem pageAligned_lt {size : Nat} (h : size + 4095 < UInt64.size) : pageAligned size < UInt64.size := by
  unfold pageAligned pageSize
  omega

/-- The low twelve bits are those within a page. -/
private theorem and_pageMask {n : Nat} (h : n < 2 ^ 64) : n &&& (2 ^ 64 - 4096) = n / 4096 * 4096 := by
  have hmask : ∀ i < 64, (2 ^ 64 - 4096).testBit i = decide (12 ≤ i) := by decide
  have hpages : n / 4096 * 4096 = n >>> 12 <<< 12 := by rw [Nat.shiftLeft_eq, Nat.shiftRight_eq_div_pow]
  rw [hpages]
  refine Nat.eq_of_testBit_eq fun i => ?_
  rw [Nat.testBit_and, Nat.testBit_shiftLeft, Nat.testBit_shiftRight]
  by_cases hi : i < 64
  · rw [hmask i hi, Bool.and_comm]
    by_cases hlow : 12 ≤ i
    · rw [Nat.add_sub_cancel' hlow]
    · simp [hlow]
  · have hn : n.testBit i = false := Nat.testBit_lt_two_pow (h.trans_le (Nat.pow_le_pow_right (by decide) (by omega)))
    have hlow : 12 + (i - 12) = i := by omega
    simp [hlow, hn]

theorem ofNat_pageAligned {size : Nat} (h : size + 4095 < UInt64.size) :
    UInt64.ofNat (pageAligned size) = (UInt64.ofNat size + 4095) &&& ~~~4095 := by
  have hsum : (UInt64.ofNat size + 4095).toNat = size + 4095 := by
    rw [UInt64.toNat_add, UInt64.toNat_ofNat']
    change (size % UInt64.size + 4095) % UInt64.size = size + 4095
    rw [Nat.mod_eq_of_lt (Nat.lt_of_add_right_lt h), Nat.mod_eq_of_lt h]
  refine UInt64.toNat.inj ?_
  rw [UInt64.toNat_and, hsum, UInt64.toNat_ofNat', Nat.mod_eq_of_lt (pageAligned_lt h)]
  exact (and_pageMask h).symm

/-! ### Guards -/

theorem isExecutable_eq (m : Memory) : m.isExecutable = !m.isWritable := by
  unfold isExecutable isWritable
  cases m.protection <;> rfl

theorem write_eq_ok_iff {offset : Nat} {data : List UInt8} :
    m.write offset data = .ok m' ↔ offset + data.length ≤ m.size ∧ m.isWritable = true ∧
      m' = { m with stored := m.front offset ++ data ++ m.stored.drop (offset + data.length) } := by
  unfold write
  by_cases hfit : offset + data.length ≤ m.size
  · by_cases hw : m.isWritable = true
    · simp [Nat.not_lt.2 hfit, hfit, hw, eq_comm]
    · simp [Nat.not_lt.2 hfit, hw]
  · simp [Nat.not_le.1 hfit, hfit]

theorem room_eq_ok_iff {start len : Nat} :
    m.room start = .ok len ↔ m.isWritable = true ∧ start ≤ m.size ∧ len = m.size - start := by
  unfold room
  by_cases hw : m.isWritable = true
  · by_cases hstart : start ≤ m.size
    · simp [hw, hstart, Nat.not_lt.2 hstart, eq_comm]
    · simp [hw, hstart, Nat.not_le.1 hstart]
  · simp [hw]

/-- A change of protection is made or refused; neither moves the mapping or writes to it. -/
theorem protect_cases (m : Memory) (protection : Protection) :
    (∃ answers, m.protect protection = (.ok (), { m with protection := protection, answers := answers })) ∨
      ∃ answers, m.protect protection = (.error .protectionFailed, { m with answers := answers }) := by
  unfold protect
  split
  · rename_i hsame
    exact .inl ⟨m.answers, by rw [← hsame]⟩
  · split
    · rename_i hanswers
      exact .inl ⟨m.answers, rfl⟩
    · exact .inl ⟨_, rfl⟩
    · exact .inr ⟨_, rfl⟩

/-- A change of protection that the host will not refuse. -/
theorem protect_of_granted (h : m.answers = []) (protection : Protection) :
    m.protect protection = (.ok (), { m with protection := protection }) := by
  unfold protect
  split
  · rename_i hsame
    rw [← hsame]
  · rw [h]

/-! ### Bytes -/

/-- Bytes for a place in a mapping. -/
structure Store where
  offset : Nat
  data : List UInt8
deriving DecidableEq, Repr

/-- The byte that a store has for a place, if it covers the place. -/
def Store.byte? (s : Store) (i : Nat) : Option UInt8 := if s.offset ≤ i then s.data[i - s.offset]? else none

/-- The same bytes, with the place counted from `start` on. -/
def Store.shift (s : Store) (start : Nat) : Store := ⟨start + s.offset, s.data⟩

/-- The byte that the last store that covers a place has for it. -/
def lastByte? (log : List Store) (i : Nat) : Option UInt8 := log.reverse.findSome? fun s => s.byte? i

theorem lastByte?_singleton (s : Store) (i : Nat) : lastByte? [s] i = s.byte? i := by
  rw [lastByte?, List.reverse_singleton, List.findSome?_singleton]

theorem lastByte?_append (log later : List Store) (i : Nat) :
    lastByte? (log ++ later) i = (lastByte? later i).or (lastByte? log i) := by
  rw [lastByte?, List.reverse_append, List.findSome?_append]
  rfl

/-- Bytes with zeros after them. -/
private theorem getElem?_padded {bytes : List UInt8} {n : Nat} (h : bytes.length ≤ n) (k : Nat) :
    (bytes ++ List.replicate (n - bytes.length) 0)[k]? = if k < n then some (bytes[k]?.getD 0) else none := by
  by_cases hk : k < bytes.length
  · rw [List.getElem?_append_left hk, if_pos (hk.trans_le h), List.getElem?_eq_getElem hk, Option.getD_some]
  · rw [List.getElem?_append_right (Nat.not_lt.1 hk), List.getElem?_replicate, List.getElem?_eq_none (Nat.not_lt.1 hk),
      Option.getD_none]
    exact if_congr (by omega) rfl rfl

theorem length_front (m : Memory) (offset : Nat) : (m.front offset).length = offset := by
  simp only [front, List.length_append, List.length_replicate, List.length_take]
  omega

/-- The part in front of a write keeps its bytes. -/
theorem getElem?_front (m : Memory) {offset i : Nat} (h : i < offset) : (m.front offset)[i]? = some (m.byteAt i) := by
  rw [front, getElem?_padded (List.length_take_le _ _), if_pos h, List.getElem?_take_of_lt h, byteAt,
    List.getD_eq_getElem?_getD]

theorem read?_eq (m : Memory) (offset len : Nat) :
    m.read? offset len = if offset + len ≤ m.size then some ((List.range' offset len).map m.byteAt) else none := by
  unfold read?
  refine if_congr Iff.rfl (congrArg some (List.ext_getElem? fun k => ?_)) rfl
  rw [getElem?_padded (List.length_take_le _ _), List.getElem?_map]
  by_cases hk : k < len
  · rw [if_pos hk, List.getElem?_take_of_lt hk, List.getElem?_drop, List.getElem?_range' hk, Option.map_some, byteAt,
      List.getD_eq_getElem?_getD, Nat.one_mul]
  · rw [if_neg hk, List.getElem?_eq_none (by simpa using hk), Option.map_none]

/-- A write changes the bytes that it covers and no others. -/
theorem byteAt_write {s : Store} (h : m.write s.offset s.data = .ok m') (i : Nat) :
    m'.byteAt i = (s.byte? i).getD (m.byteAt i) := by
  obtain ⟨-, -, rfl⟩ := write_eq_ok_iff.1 h
  rw [byteAt, List.getD_eq_getElem?_getD, List.append_assoc, Store.byte?]
  by_cases hfront : i < s.offset
  · rw [List.getElem?_append_left (by rwa [length_front]), getElem?_front m hfront, if_neg (Nat.not_le.2 hfront)]
    rfl
  · have hle := Nat.not_lt.1 hfront
    rw [List.getElem?_append_right (by rwa [length_front]), length_front, if_pos hle]
    by_cases hdata : i - s.offset < s.data.length
    · rw [List.getElem?_append_left hdata, List.getElem?_eq_getElem hdata]
      rfl
    · -- past the data the stored bytes stand where they stood
      have hpast := Nat.not_lt.1 hdata
      have hi : s.offset + s.data.length + (i - s.offset - s.data.length) = i := by omega
      rw [List.getElem?_append_right hpast, List.getElem?_eq_none hpast, List.getElem?_drop, hi, byteAt,
        List.getD_eq_getElem?_getD]
      rfl

/-! ### Accesses -/

inductive Access where
  | write (s : Store)
  /-- Asks for the view from `start` on and stores through it.  The places of the stores count from `start`. -/
  | tail (start : Nat) (stores : List Store)
  | makeWritable
  | makeExecutable
  | read (offset len : Nat)
deriving DecidableEq, Repr

inductive Reply where
  | done
  | refused (e : MemoryError)
  /-- The length of a view. -/
  | view (len : Nat)
  | bytes (found : Option (List UInt8))
deriving DecidableEq, Repr

def put (m : Memory) (s : Store) : Memory :=
  match m.write s.offset s.data with
  | .ok m => m
  | .error _ => m

/-- Stores through a view of `len` bytes from `start` on.  What reaches past its end is not stored. -/
def fillView (m : Memory) (start len : Nat) : List Store → Memory
  | [] => m
  | s :: rest =>
    if s.offset + s.data.length ≤ len then (m.put (s.shift start)).fillView start len rest
    else m.fillView start len rest

/-- How a change of protection is answered. -/
def Reply.ofChange : Except MemoryError Unit → Reply
  | .ok _ => .done
  | .error e => .refused e

def access (m : Memory) : Access → Reply × Memory
  | .write s =>
    match m.write s.offset s.data with
    | .ok m => (.done, m)
    | .error e => (.refused e, m)
  | .tail start stores =>
    match m.room start with
    | .ok len => (.view len, m.fillView start len stores)
    | .error e => (.refused e, m)
  | .makeWritable => (.ofChange m.makeWritable.1, m.makeWritable.2)
  | .makeExecutable => (.ofChange m.makeExecutable.1, m.makeExecutable.2)
  | .read offset len => (.bytes (m.read? offset len), m)

/-- One access after the other: the replies, and the mapping after them. -/
def accessAll (m : Memory) : List Access → List Reply × Memory
  | [] => ([], m)
  | a :: rest =>
    let (reply, m) := m.access a
    let (replies, m) := m.accessAll rest
    (reply :: replies, m)

namespace Access

/-- The protection that an access asks for. -/
def asked : Access → List Protection
  | .makeWritable => [.readWrite]
  | .makeExecutable => [.readExec]
  | _ => []

/-- The stores that an access with this reply has made. -/
def made : Access → Reply → List Store
  | .write s, .done => [s]
  | .tail start stores, .view len =>
    (stores.filter fun s => s.offset + s.data.length ≤ len).map fun s => s.shift start
  | _, _ => []

/-- The stores that a run of accesses has made, the last one at the end. -/
def allMade (accesses : List Access) (replies : List Reply) : List Store :=
  (List.zipWith made accesses replies).flatten

end Access

/-- An access that is refused has changed nothing. -/
theorem access_refused (hm : m.answers = []) {a : Access} {e : MemoryError} (h : (m.access a).1 = .refused e) :
    (m.access a).2 = m := by
  cases a with
  | write s =>
    cases hwrite : m.write s.offset s.data with
    | ok m' => simp [access, hwrite] at h
    | error e' => simp [access, hwrite]
  | tail start stores =>
    cases hroom : m.room start with
    | ok len => simp [access, hroom] at h
    | error e' => simp [access, hroom]
  | makeWritable | makeExecutable =>
    simp only [access, makeWritable, makeExecutable, protect_of_granted hm] at h
    cases h
  | read offset len => rfl

/-! ### Runs -/

/-- From `m` to `m'` the protections `asked` were set and the stores `log` were made, each in this order, and nothing
else has changed. -/
structure Becomes (m : Memory) (asked : List Protection) (log : List Store) (m' : Memory) : Prop where
  base_eq : m'.base = m.base
  size_eq : m'.size = m.size
  protection_eq : m'.protection = asked.getLast?.getD m.protection
  byteAt_eq : ∀ i, m'.byteAt i = (lastByte? log i).getD (m.byteAt i)
  answers_eq : m'.answers = m.answers

namespace Becomes

variable {asked asked' : List Protection} {log log' : List Store}

theorem refl (m : Memory) : m.Becomes [] [] m := ⟨rfl, rfl, rfl, fun _ => rfl, rfl⟩

theorem trans (h : m.Becomes asked log m') (h' : m'.Becomes asked' log' m'') :
    m.Becomes (asked ++ asked') (log ++ log') m'' where
  base_eq := h'.base_eq.trans h.base_eq
  size_eq := h'.size_eq.trans h.size_eq
  protection_eq := by rw [h'.protection_eq, h.protection_eq, List.getLast?_append, Option.getD_or]
  byteAt_eq i := by rw [h'.byteAt_eq, h.byteAt_eq, lastByte?_append, Option.getD_or]
  answers_eq := h'.answers_eq.trans h.answers_eq

theorem isWritable (h : m.Becomes [] log m') : m'.isWritable = m.isWritable := by
  unfold Memory.isWritable
  rw [h.protection_eq]
  rfl

end Becomes

theorem write_becomes {s : Store} (h : m.write s.offset s.data = .ok m') : m.Becomes [] [s] m' := by
  have hbytes := byteAt_write h
  obtain ⟨-, -, rfl⟩ := write_eq_ok_iff.1 h
  exact ⟨rfl, rfl, rfl, fun i => by rw [lastByte?_singleton, hbytes], rfl⟩

theorem put_becomes {s : Store} (hw : m.isWritable = true) (hfit : s.offset + s.data.length ≤ m.size) :
    m.Becomes [] [s] (m.put s) := by
  have hwrite := write_eq_ok_iff.2 ⟨hfit, hw, rfl⟩
  unfold put
  rw [hwrite]
  exact write_becomes hwrite

/-- All the stores that lie in the view are made. -/
theorem fillView_becomes (hw : m.isWritable = true) {start len : Nat} (hlen : start + len ≤ m.size)
    (stores : List Store) :
    m.Becomes [] (Access.made (.tail start stores) (.view len)) (m.fillView start len stores) := by
  induction stores generalizing m with
  | nil => exact .refl m
  | cons s rest ih =>
    by_cases hfit : s.offset + s.data.length ≤ len
    · -- the store leaves the mapping writable and as long as it was
      have hput : m.Becomes [] [s.shift start] (m.put (s.shift start)) :=
        put_becomes hw (by simp only [Store.shift]; omega)
      have hrest := ih (hput.isWritable.trans hw) (hput.size_eq ▸ hlen)
      simpa [Access.made, fillView, hfit] using hput.trans hrest
    · simpa [Access.made, fillView, hfit] using ih hw hlen

theorem access_becomes (hm : m.answers = []) (a : Access) :
    m.Becomes a.asked (a.made (m.access a).1) (m.access a).2 := by
  cases a with
  | write s =>
    cases hwrite : m.write s.offset s.data with
    | ok m' =>
      simp only [access, hwrite]
      exact write_becomes hwrite
    | error e =>
      simp only [access, hwrite]
      exact .refl m
  | tail start stores =>
    cases hroom : m.room start with
    | ok len =>
      simp only [access, hroom]
      obtain ⟨hw, hstart, rfl⟩ := room_eq_ok_iff.1 hroom
      exact fillView_becomes hw (by omega) stores
    | error e =>
      simp only [access, hroom]
      exact .refl m
  | makeWritable | makeExecutable =>
    simp only [access, makeWritable, makeExecutable, protect_of_granted hm]
    exact ⟨rfl, rfl, rfl, fun _ => rfl, rfl⟩
  | read offset len => exact .refl m

/-- A run of accesses sets the protections that it asks for and makes the stores that its replies tell of. -/
theorem accessAll_becomes (hm : m.answers = []) (accesses : List Access) :
    m.Becomes (accesses.flatMap Access.asked) (Access.allMade accesses (m.accessAll accesses).1)
      (m.accessAll accesses).2 := by
  induction accesses generalizing m with
  | nil => exact .refl m
  | cons a rest ih =>
    have hfirst := access_becomes hm a
    rw [List.flatMap_cons]
    exact hfirst.trans (ih (hfirst.answers_eq.trans hm))

/-! ### New mappings -/

theorem allocate_invalidSize_iff (host : Host) (size : Nat) :
    allocate host size = .error .invalidSize ↔ size = 0 ∨ UInt64.size ≤ size + 4095 := by
  unfold allocate
  by_cases hbad : size = 0 ∨ UInt64.size ≤ size + (pageSize - 1)
  · rw [if_pos hbad]
    exact iff_of_true rfl hbad
  · rw [if_neg hbad]
    refine iff_of_false ?_ hbad
    cases host.grant (pageAligned size) <;> simp

theorem allocate_eq_ok_iff {host : Host} {size : Nat} :
    allocate host size = .ok m ↔ size ≠ 0 ∧ size + 4095 < UInt64.size ∧
      ∃ base, host.grant (pageAligned size) = some base ∧
        m = ⟨base, pageAligned size, .readWrite, [], host.answers⟩ := by
  unfold allocate
  by_cases hbad : size = 0 ∨ UInt64.size ≤ size + (pageSize - 1)
  · rw [if_pos hbad]
    refine iff_of_false (by simp) ?_
    rintro ⟨hpos, hlt, -⟩
    exact hbad.elim hpos (Nat.not_le.2 hlt)
  · have hpos : size ≠ 0 := fun h => hbad (.inl h)
    have hlt : size + 4095 < UInt64.size := Nat.not_le.1 fun h => hbad (.inr h)
    rw [if_neg hbad, and_iff_right hpos, and_iff_right hlt]
    cases host.grant (pageAligned size) <;> simp [eq_comm]

/-- A mapping is refused for its size exactly if the size is zero or cannot be rounded up.  Any other that is granted
has the least number of whole pages, is writable and blank.  After any run of accesses it is either writable or
executable, as was asked for last; each byte is that of the last store which covers it; a write succeeds exactly if it
lies in the mapping while that is writable; and what is refused changes nothing. -/
theorem allocate_guards (grant : Nat → Option UInt64) (size : Nat) :
    (allocate ⟨grant, []⟩ size = .error .invalidSize ↔ size = 0 ∨ UInt64.size ≤ size + 4095) ∧
      ∀ base, size ≠ 0 → size + 4095 < UInt64.size → grant (pageAligned size) = some base →
        ∃ m₀, allocate ⟨grant, []⟩ size = .ok m₀ ∧ m₀.base = base ∧
          IsLeast {n | 4096 ∣ n ∧ size ≤ n} m₀.size ∧
          UInt64.ofNat m₀.size = (UInt64.ofNat size + 4095) &&& ~~~4095 ∧
          m₀.isWritable = true ∧ (∀ i, m₀.byteAt i = 0) ∧
          ∀ accesses,
            let replies := (m₀.accessAll accesses).1
            let m := (m₀.accessAll accesses).2
            m.base = base ∧ m.size = m₀.size ∧ m.isExecutable = !m.isWritable ∧
              m.protection = (accesses.flatMap Access.asked).getLast?.getD .readWrite ∧
              (∀ i, m.byteAt i = (lastByte? (Access.allMade accesses replies) i).getD 0) ∧
              (∀ offset len, m.read? offset len =
                if offset + len ≤ m.size then some ((List.range' offset len).map m.byteAt) else none) ∧
              (∀ offset data, (∃ m', m.write offset data = .ok m') ↔
                offset + data.length < UInt64.size ∧ offset + data.length ≤ m.size ∧ m.isWritable = true) ∧
              (∀ start len, m.room start = .ok len ↔
                m.isWritable = true ∧ start ≤ m.size ∧ len = m.size - start) ∧
              ∀ a e, (m.access a).1 = .refused e → (m.access a).2 = m := by
  refine ⟨allocate_invalidSize_iff _ size, fun base hpos hlt hgrant => ?_⟩
  refine ⟨_, allocate_eq_ok_iff.2 ⟨hpos, hlt, base, hgrant, rfl⟩, rfl, isLeast_pageAligned size,
    ofNat_pageAligned hlt, rfl, fun _ => rfl, fun accesses => ?_⟩
  intro replies m
  have h : Becomes _ _ _ m := accessAll_becomes rfl accesses
  refine ⟨h.base_eq, h.size_eq, isExecutable_eq m, h.protection_eq, h.byteAt_eq, read?_eq m, fun offset data => ?_,
    fun _ _ => room_eq_ok_iff, fun _ _ => access_refused h.answers_eq⟩
  -- the mapping ends below the largest word, so a write whose end is no word does not lie in it
  have hsize : m.size < UInt64.size := h.size_eq ▸ pageAligned_lt hlt
  constructor
  · rintro ⟨m', hm'⟩
    obtain ⟨hfit, hw, -⟩ := write_eq_ok_iff.1 hm'
    exact ⟨by omega, hfit, hw⟩
  · rintro ⟨-, hfit, hw⟩
    exact ⟨_, write_eq_ok_iff.2 ⟨hfit, hw, rfl⟩⟩

/-- A write over the end of a page, one while the mapping is executable, a view with a store past its end, a write of
nothing at the end of the mapping and one whose end is no word. -/
def patches : List Access :=
  [.write ⟨4094, [0x90, 0x90, 0xC3]⟩, .makeExecutable, .write ⟨4094, [0xC3]⟩, .makeWritable,
    .tail 4096 [⟨0, [0xCC]⟩, ⟨4096, [0xF4]⟩], .write ⟨8192, []⟩, .write ⟨0xFFFFFFFFFFFFFFFF, [0x90]⟩, .makeExecutable]

theorem allocate_guards_patches :
    ∃ m₀, allocate (.lending 0x700000000000 0x1000000) 5000 = .ok m₀ ∧ m₀.size = 8192 ∧
      (m₀.accessAll patches).1 = [.done, .done, .refused .notWritable, .done, .view 4096, .done, .refused .invalidSize,
        .done] ∧
      (m₀.accessAll patches).2.isExecutable = true ∧
      (m₀.accessAll patches).2.read? 4093 5 = some [0, 0x90, 0x90, 0xCC, 0] := by
  obtain ⟨m₀, hmap, -, -, -, -, -, hrun⟩ :=
    (allocate_guards (Host.lending 0x700000000000 0x1000000).grant 5000).2 0x700000000000 (by decide) (by decide)
      (by decide)
  obtain rfl : ⟨0x700000000000, 8192, .readWrite, [], []⟩ = m₀ := by
    rw [← Except.ok.injEq, ← hmap]
    decide
  obtain ⟨-, hsize, -, hprotection, hbytes, hread, -⟩ := hrun patches
  have hreplies : (accessAll ⟨0x700000000000, 8192, .readWrite, [], []⟩ patches).1 =
      [.done, .done, .refused .notWritable, .done, .view 4096, .done, .refused .invalidSize, .done] := by decide +kernel
  refine ⟨_, hmap, rfl, hreplies, by rw [isExecutable, hprotection]; decide, ?_⟩
  rw [hread, if_pos (hsize ▸ by decide), funext hbytes, hreplies]
  decide

end StackMachine.Native.Memory
