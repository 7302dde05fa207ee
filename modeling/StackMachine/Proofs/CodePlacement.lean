import Mathlib
import StackMachine.Native.Machine
import StackMachine.Proofs.Encoding
import StackMachine.Proofs.Execution
import StackMachine.Proofs.GuardedMemory

/-!
# Placing code

A code block hands out addresses in ascending order, so code that was placed once is found at its address for ever.

* A placement adds its code at the end of the block (`Adds`) or leaves the code as it is (`Retains`), whether or not the
  host refuses to change the protection (`place_cases`).
* `Granted` blocks have a host that refuses no change of protection.  There a placement fails only if its code cannot be
  encoded or does not fit, and then nothing has changed (`Granted.place_cases`).
* `Covers` are the addresses of the block's mapping.
* `Sound` blocks lie in the address space and have all their code in the part that is used.
* `Grows`: what was found in the block is still found.  `place` keeps a block sound and makes it grow (`place_sound`),
  and the new code is found at the new address, with the older code below it (`place_ok`).
-/

namespace StackMachine.Native

open X86 (Assembly)
open Machine (Placed)

namespace CodeBlock

variable {b b' : CodeBlock} {asm : Assembly} {bytes : List UInt8} {entry : CodePtr}

/-- The address lies in the block's mapping. -/
def Covers (b : CodeBlock) (entry : CodePtr) : Prop :=
  b.base.toNat ≤ entry.addr.toNat ∧ entry.addr.toNat < b.base.toNat + b.capacity

/-- The block lies in the address space, and all its code in the part that is used. -/
structure Sound (b : CodeBlock) : Prop where
  fits : b.base.toNat + b.capacity ≤ UInt64.size
  used_le : b.used ≤ b.capacity
  placed_lt : ∀ q ∈ b.placed, q.entry.addr.toNat < b.base.toNat + b.used

/-- Code that was found in the block is still found there. -/
structure Grows (b b' : CodeBlock) : Prop where
  base_eq : b'.base = b.base
  capacity_eq : b'.capacity = b.capacity
  placed : ∀ addr code older, Placed b.placed addr code older → Placed b'.placed addr code older

namespace Grows

theorem refl (b : CodeBlock) : Grows b b := ⟨rfl, rfl, fun _ _ _ h => h⟩

theorem trans {b'' : CodeBlock} (h : Grows b b') (h' : Grows b' b'') : Grows b b'' :=
  ⟨h'.base_eq.trans h.base_eq, h'.capacity_eq.trans h.capacity_eq,
    fun addr code older hp => h'.placed addr code older (h.placed addr code older hp)⟩

theorem covers (h : Grows b b') : b'.Covers entry ↔ b.Covers entry := by
  simp only [Covers, h.base_eq, h.capacity_eq]

end Grows

/-- A new block is executable and blank. -/
theorem new_eq_ok {host : Host} {size : Nat} (h : CodeBlock.new host size = .ok b) :
    ∃ base capacity answers, b = ⟨⟨base, capacity, .readExec, [], answers⟩, 0, [], none⟩ ∧
      (host.answers = [] → answers = []) := by
  unfold CodeBlock.new at h
  split at h
  · cases h
  rename_i memory hmemory
  obtain ⟨-, -, base, -, rfl⟩ := Memory.allocate_eq_ok_iff.1 hmemory
  split at h
  · cases h
  rename_i memory hchange
  cases h
  by_cases hanswers : host.answers = []
  · rw [Memory.makeExecutable, Memory.protect_of_granted hanswers] at hchange
    cases hchange
    exact ⟨_, _, _, rfl, fun h => h⟩
  · rcases Memory.protect_cases ⟨base, Memory.pageAligned size, .readWrite, [], host.answers⟩ .readExec
      with ⟨answers, hdone⟩ | ⟨answers, hrefused⟩
    · rw [Memory.makeExecutable, hdone] at hchange
      cases hchange
      exact ⟨_, _, _, rfl, fun h => absurd h hanswers⟩
    · rw [Memory.makeExecutable, hrefused] at hchange
      cases hchange

theorem Sound.covers_of_contains (h : b.Sound) (hc : b.contains entry = true) : b.Covers entry := by
  have := h.used_le
  simp only [contains, offset?] at hc
  split at hc
  · rename_i offset ho
    split at ho
    · cases ho
      simp only [decide_eq_true_eq] at hc
      exact ⟨by assumption, by omega⟩
    · cases ho
  · cases hc

/-! ### Filling -/

/-- Either the code fits and is all that is written, or nothing is.  Code that has an encoding is refused only if it
does not fit. -/
theorem fill_cases {m : Memory} (hw : m.isWritable = true) (start : Nat) (target : UInt64) (asm : Assembly) :
    (∃ code, asm.encode target = .ok code ∧ start + code.length ≤ m.size ∧
      fill m start target asm =
        (.ok code, { m with stored := m.front start ++ code ++ m.stored.drop (start + code.length) })) ∨
      ∃ e, fill m start target asm = (.error e, m) ∧
        ∀ code, asm.encode target = .ok code → m.size < start + code.length ∧
          (start ≤ m.size → ∃ needed available, e = .bufferFull needed available) := by
  by_cases hstart : m.size < start
  · have hroom : m.room start = .error .invalidSize := by simp [Memory.room, hw, hstart]
    refine .inr ⟨.memory .invalidSize, by simp [fill, hroom], fun code _ => ⟨by omega, fun hle => by omega⟩⟩
  have hroom : m.room start = .ok (m.size - start) := Memory.room_eq_ok_iff.2 ⟨hw, Nat.not_lt.1 hstart, rfl⟩
  cases henc : asm.encode target with
  | error e => exact .inr ⟨.ofAssembly e, by simp only [fill, hroom, Assembly.assemble, henc], nofun⟩
  | ok code =>
    by_cases hfit : start + code.length ≤ m.size
    · have hwrite : m.write start code =
          .ok { m with stored := m.front start ++ code ++ m.stored.drop (start + code.length) } :=
        Memory.write_eq_ok_iff.2 ⟨hfit, hw, rfl⟩
      have hlen : code.length ≤ m.size - start := by omega
      exact .inl ⟨code, rfl, hfit, by simp only [fill, hroom, Assembly.assemble, henc, if_pos hlen, hwrite]⟩
    · have hlen : ¬code.length ≤ m.size - start := by omega
      refine .inr ⟨.bufferFull code.length (m.size - start),
        by simp only [fill, hroom, Assembly.assemble, henc, if_neg hlen, Error.ofAssembly], fun code' h => ?_⟩
      cases h
      exact ⟨by omega, fun _ => ⟨_, _, rfl⟩⟩

/-! ### Placing -/

/-- Where the next placement starts. -/
def next (b : CodeBlock) : CodePtr := ⟨b.base + UInt64.ofNat b.used⟩

theorem toNat_next (hfits : b.base.toNat + b.capacity ≤ UInt64.size) (hu : b.used < b.capacity) :
    b.next.addr.toNat = b.base.toNat + b.used := X86.toNat_add_ofNat (by omega)

/-- The bytes of the used part. -/
def code (b : CodeBlock) : List UInt8 := b.memory.front b.used

theorem length_code (b : CodeBlock) : b.code.length = b.used := Memory.length_front _ _

/-- The code of an assembly fits before the end of the block, and `b'` is the block with it added. -/
structure Adds (b : CodeBlock) (asm : Assembly) (bytes : List UInt8) (b' : CodeBlock) : Prop where
  encode_eq : asm.encode b.next.addr = .ok bytes
  used_lt : b.used < b.capacity
  length_le : bytes.length ≤ b.remaining
  base_eq : b'.base = b.base
  capacity_eq : b'.capacity = b.capacity
  used_eq : b'.used = b.used + bytes.length
  placed_eq : b'.placed = ⟨b.next, asm, bytes⟩ :: b.placed
  code_eq : b'.code = b.code ++ bytes
  length_stored : b'.memory.stored.length = max b.memory.stored.length b'.used

/-- The block has the same code in it.  What is stored after the code may differ. -/
structure Retains (b b' : CodeBlock) : Prop where
  base_eq : b'.base = b.base
  capacity_eq : b'.capacity = b.capacity
  used_eq : b'.used = b.used
  placed_eq : b'.placed = b.placed
  code_eq : b'.code = b.code
  stored_le : b.memory.stored.length ≤ b'.memory.stored.length

theorem Adds.used_le (h : b.Adds asm bytes b') : b'.used ≤ b'.capacity := by
  have hlen := h.length_le
  have hlt := h.used_lt
  rw [h.used_eq, h.capacity_eq]
  simp only [remaining, capacity] at hlen hlt ⊢
  omega

/-- What is written after the code leaves the code. -/
private theorem front_write (m : Memory) (start : Nat) (data : List UInt8) (protection : Protection)
    (answers : List Bool) :
    Memory.front ⟨m.base, m.size, protection, m.front start ++ data ++ m.stored.drop (start + data.length), answers⟩
      start = m.front start := by
  have hlen := Memory.length_front m start
  have htake : (m.front start ++ data ++ m.stored.drop (start + data.length)).take start = m.front start := by
    rw [List.append_assoc, List.take_left' hlen]
  rw [Memory.front, htake, hlen, Nat.sub_self, List.replicate_zero, List.append_nil]

/-- A block whose next code has been written, and counted as placed. -/
private theorem adds_write (b : CodeBlock) (henc : asm.encode b.next.addr = .ok bytes) (hlt : b.used < b.capacity)
    (hfit : b.used + bytes.length ≤ b.capacity) (protection : Protection) (answers : List Bool) :
    b.Adds asm bytes
      ⟨⟨b.memory.base, b.memory.size, protection,
          b.memory.front b.used ++ bytes ++ b.memory.stored.drop (b.used + bytes.length), answers⟩,
        b.used + bytes.length, ⟨b.next, asm, bytes⟩ :: b.placed, b.dump⟩ := by
  have hfront := Memory.length_front b.memory b.used
  refine ⟨henc, hlt, Nat.le_sub_of_add_le' hfit, rfl, rfl, rfl, rfl, ?_, ?_⟩
  · have hlen : (b.memory.front b.used ++ bytes).length = b.used + bytes.length := by rw [List.length_append, hfront]
    simp only [code, Memory.front]
    rw [← Memory.front, List.take_left' hlen, hlen, Nat.sub_self, List.replicate_zero, List.append_nil]
  · simp only [List.length_append, List.length_drop, hfront]
    omega

/-- A block whose next code has been written, but does not count as placed. -/
private theorem retains_write (b : CodeBlock) (data : List UInt8) (protection : Protection) (answers : List Bool) :
    b.Retains
      ⟨⟨b.memory.base, b.memory.size, protection,
          b.memory.front b.used ++ data ++ b.memory.stored.drop (b.used + data.length), answers⟩,
        b.used, b.placed, b.dump⟩ := by
  refine ⟨rfl, rfl, rfl, rfl, front_write _ _ _ _ _, ?_⟩
  simp only [List.length_append, List.length_drop, Memory.length_front]
  omega

/-- A placement adds its code or leaves the code of the block as it is. -/
theorem place_cases (b : CodeBlock) (asm : Assembly) :
    (∃ bytes b', b.place asm = (.ok ⟨b.next, asm, bytes⟩, b') ∧ b.Adds asm bytes b') ∨
      ∃ e b', b.place asm = (.error e, b') ∧ b.Retains b' := by
  unfold place
  rcases b.memory.protect_cases .readWrite with ⟨answers, hchange⟩ | ⟨answers, hchange⟩
  · simp only [Memory.makeWritable, hchange]
    rcases fill_cases (m := { b.memory with protection := .readWrite, answers := answers }) rfl b.used b.next.addr asm
      with ⟨bytes, henc, hfit, hfill⟩ | ⟨e, hfill, -⟩
    · rw [next] at hfill
      simp only [hfill, Memory.makeExecutable]
      generalize hwritten : Memory.mk _ _ _ (_ ++ bytes ++ _) _ = written
      rcases written.protect_cases .readExec with ⟨answers', hchange'⟩ | ⟨answers', hchange'⟩
      · subst hwritten
        simp only [hchange']
        split
        · rename_i hlt
          exact .inl ⟨bytes, _, rfl, adds_write b henc hlt hfit _ _⟩
        · exact .inr ⟨_, _, rfl, retains_write b bytes _ _⟩
      · subst hwritten
        simp only [hchange']
        exact .inr ⟨_, _, rfl, retains_write b bytes _ _⟩
    · rw [next] at hfill
      simp only [hfill, Memory.makeExecutable]
      rcases Memory.protect_cases { b.memory with protection := .readWrite, answers := answers } .readExec
        with ⟨answers', hchange'⟩ | ⟨answers', hchange'⟩
      · simp only [hchange']
        exact .inr ⟨_, _, rfl, rfl, rfl, rfl, rfl, rfl, Nat.le_refl _⟩
      · simp only [hchange']
        exact .inr ⟨_, _, rfl, rfl, rfl, rfl, rfl, rfl, Nat.le_refl _⟩
  · simp only [Memory.makeWritable, hchange]
    exact .inr ⟨_, _, rfl, rfl, rfl, rfl, rfl, rfl, Nat.le_refl _⟩

theorem place_adds {q : Placement} (h : b.place asm = (.ok q, b')) :
    b.Adds asm q.bytes b' ∧ q = ⟨b.next, asm, q.bytes⟩ := by
  rcases place_cases b asm with ⟨bytes, b', hp, hadds⟩ | ⟨e, b', hp, _⟩
  · rw [hp] at h
    cases h
    exact ⟨hadds, rfl⟩
  · rw [hp] at h
    cases h

/-! ### Hosts that refuse nothing -/

/-- The block is executable, and the host will refuse no change of its protection. -/
structure Granted (b : CodeBlock) : Prop where
  executable : b.memory.protection = .readExec
  answers : b.memory.answers = []

theorem Granted.isExecutable (h : b.Granted) : b.memory.isExecutable = true := by
  simp [Memory.isExecutable, h.executable]

theorem Granted.isWritable (h : b.Granted) : b.memory.isWritable = false := by
  simp [Memory.isWritable, h.executable]

/-- A placement adds code that fits before the end of the block, or it leaves a block as it is whose used part is
written.  Code that has an encoding is refused only because the block is full. -/
theorem Granted.place_cases (h : b.Granted) (asm : Assembly) :
    (∃ bytes b', b.place asm = (.ok ⟨b.next, asm, bytes⟩, b') ∧ b.Adds asm bytes b' ∧ b'.Granted) ∨
      ∃ e b', b.place asm = (.error e, b') ∧ b'.Granted ∧ (b.used ≤ b.memory.stored.length → b' = b) ∧
        ∀ bytes, asm.encode b.next.addr = .ok bytes → (bytes.length ≤ b.remaining → b.capacity ≤ b.used) ∧
          (b.used ≤ b.capacity → ∃ needed available, e = .bufferFull needed available) := by
  obtain ⟨⟨base, size, protection, stored, answers⟩, used, placed, dump⟩ := b
  obtain rfl : protection = .readExec := h.executable
  obtain rfl : answers = [] := h.answers
  unfold place
  rcases fill_cases (m := ⟨base, size, .readWrite, stored, []⟩) rfl used (base + UInt64.ofNat used) asm
    with ⟨bytes, henc, hfit, hfill⟩ | ⟨e, hfill, hfull⟩
  · simp only [Memory.makeWritable, Memory.makeExecutable, Memory.protect_of_granted, CodeBlock.base, hfill]
    by_cases hlt : used < size
    · refine .inl ⟨bytes, _, if_pos hlt, adds_write _ henc hlt hfit _ _, rfl, rfl⟩
    · -- a full block takes no code, not even code without bytes
      have hnil : bytes = [] := List.length_eq_zero_iff.1 (by simp only at hfit; omega)
      refine .inr ⟨_, _, if_neg hlt, ⟨rfl, rfl⟩, fun hw => ?_,
        fun _ _ => ⟨fun _ => Nat.not_lt.1 hlt, fun _ => ⟨_, _, rfl⟩⟩⟩
      have hfront : Memory.front ⟨base, size, .readWrite, stored, []⟩ used = stored.take used := by
        have hused : used - (stored.take used).length = 0 := by
          rw [List.length_take]
          omega
        rw [Memory.front, hused, List.replicate_zero, List.append_nil]
      rw [hnil, hfront, List.append_nil, List.length_nil, Nat.add_zero, List.take_append_drop]
  · simp only [Memory.makeWritable, Memory.makeExecutable, Memory.protect_of_granted, CodeBlock.base, hfill]
    refine .inr ⟨e, _, rfl, ⟨rfl, rfl⟩, fun _ => rfl, fun bytes henc => ?_⟩
    obtain ⟨hlong, hfull⟩ := hfull bytes henc
    refine ⟨fun hlen => ?_, hfull⟩
    simp only [remaining, capacity] at hlen hlong ⊢
    omega

theorem Granted.place (h : b.Granted) (asm : Assembly) : (b.place asm).2.Granted := by
  rcases h.place_cases asm with ⟨bytes, b', hp, _, hgranted⟩ | ⟨e, b', hp, hgranted, _⟩
  · rw [hp]
    exact hgranted
  · rw [hp]
    exact hgranted

/-! ### Finding code -/

/-- Placements below other addresses are found as before. -/
private theorem placed_cons {q : Placement} {placed older : List Placement} {addr : UInt64} {code : Assembly}
    (hne : q.entry.addr ≠ addr) (h : Placed placed addr code older) : Placed (q :: placed) addr code older := by
  obtain ⟨hlt, hf⟩ := h
  refine ⟨Nat.lt_succ_of_lt hlt, ?_⟩
  rw [Machine.find?, if_neg hne, hf]
  rfl

/-- What is found at an address was placed there. -/
theorem mem_of_find? {placed : List Placement} {addr : UInt64}
    {found : Assembly × { older : List Placement // older.length < placed.length }}
    (h : Machine.find? addr placed = some found) : ∃ q ∈ placed, q.entry.addr = addr := by
  induction placed with
  | nil => cases h
  | cons q placed ih =>
    by_cases hq : q.entry.addr = addr
    · exact ⟨q, List.mem_cons_self .., hq⟩
    · rw [Machine.find?, if_neg hq] at h
      obtain ⟨found', hf, _⟩ := Option.map_eq_some_iff.1 h
      obtain ⟨q', hmem, ha⟩ := ih hf
      exact ⟨q', List.mem_cons_of_mem _ hmem, ha⟩

theorem Retains.grows (h : b.Retains b') : b.Grows b' :=
  ⟨h.base_eq, h.capacity_eq, fun _ _ _ hf => h.placed_eq ▸ hf⟩

theorem Sound.retains (hb : b.Sound) (h : b.Retains b') : b'.Sound := by
  refine ⟨?_, ?_, ?_⟩
  · rw [h.base_eq, h.capacity_eq]
    exact hb.fits
  · rw [h.used_eq, h.capacity_eq]
    exact hb.used_le
  · rw [h.placed_eq, h.base_eq, h.used_eq]
    exact hb.placed_lt

theorem place_sound (h : b.Sound) (ha : asm ≠ []) : (b.place asm).2.Sound ∧ b.Grows (b.place asm).2 := by
  rcases place_cases b asm with ⟨bytes, b', hp, hadds⟩ | ⟨e, b', hp, hretains⟩
  · rw [hp]
    have hnext := toNat_next h.fits hadds.used_lt
    have hpos : 0 < bytes.length := List.length_pos_iff.2 (X86.Assembly.encode_ne_nil ha hadds.encode_eq)
    refine ⟨⟨?_, hadds.used_le, ?_⟩, hadds.base_eq, hadds.capacity_eq, ?_⟩
    · rw [hadds.base_eq, hadds.capacity_eq]
      exact h.fits
    · rw [hadds.placed_eq, hadds.base_eq, hadds.used_eq]
      intro q hq
      rcases List.mem_cons.1 hq with rfl | hq
      · rw [hnext]
        omega
      · have := h.placed_lt q hq
        omega
    · intro addr code' older hf
      rw [hadds.placed_eq]
      apply placed_cons _ hf
      obtain ⟨_, hfind⟩ := hf
      obtain ⟨q, hq, rfl⟩ := mem_of_find? hfind
      have := h.placed_lt q hq
      intro he
      rw [← he, hnext] at this
      omega
  · rw [hp]
    exact ⟨h.retains hretains, hretains.grows⟩

/-- A placement that succeeds is found at its address. -/
theorem place_ok (h : b.Sound) {q : Placement} (hp : (b.place asm).1 = .ok q) :
    b.Covers q.entry ∧ Placed (b.place asm).2.placed q.entry.addr asm b.placed := by
  rcases place_cases b asm with ⟨bytes, b', hok, hadds⟩ | ⟨e, b', he, _⟩
  · rw [hok] at hp ⊢
    cases hp
    have hnext := toNat_next h.fits hadds.used_lt
    have hlt := hadds.used_lt
    refine ⟨⟨?_, ?_⟩, ?_⟩
    · rw [hnext]
      omega
    · rw [hnext]
      omega
    · rw [hadds.placed_eq]
      exact ⟨Nat.lt_succ_self _, by rw [Machine.find?, if_pos rfl]⟩
  · rw [he] at hp
    cases hp

end CodeBlock

end StackMachine.Native
