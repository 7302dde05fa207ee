import Mathlib
import StackMachine.Proofs.CodePlacement

/-!
# Runs of placements

A block that only placements have changed holds their bytes one after the other.

* `Tiles`: placements without gaps between them, each with the encoding of its code at its own address.
* `Tidy` blocks have the bytes of their placements, and nothing else, in the used part.  They stay tidy whatever the
  host refuses (`Tidy.place`).
* `Appends`: bytes are only added.  So what `bytesAt?` has shown once it shows for ever (`Appends.bytesAt?`).
* `placeAll_disciplined`: what holds after any sequence of placements in a new block, if the host refuses no change of
  protection.
-/

namespace StackMachine.Native

open X86 (Assembly)

/-- Placements, newest first, whose bytes fill the space from `base` on. -/
inductive Tiles (base : UInt64) : List Placement → List UInt8 → Prop where
  | nil : Tiles base [] []
  | cons {placed stored q} (rest : Tiles base placed stored) (hentry : q.entry.addr.toNat = base.toNat + stored.length)
      (hcode : q.code.encode q.entry.addr = .ok q.bytes) : Tiles base (q :: placed) (stored ++ q.bytes)

/-- Each placement is the encoding of its code and has its bytes at its own address. -/
theorem Tiles.of_mem {base : UInt64} {placed : List Placement} {stored : List UInt8} (h : Tiles base placed stored)
    {q : Placement} (hq : q ∈ placed) :
    q.code.encode q.entry.addr = .ok q.bytes ∧
      ∃ front back, stored = front ++ (q.bytes ++ back) ∧ q.entry.addr.toNat = base.toNat + front.length := by
  induction h with
  | nil => cases hq
  | @cons placed stored q' rest hentry hcode ih =>
    rcases List.mem_cons.1 hq with rfl | hq
    · exact ⟨hcode, stored, [], by simp, hentry⟩
    · obtain ⟨hcode', front, back, hstored, hfront⟩ := ih hq
      exact ⟨hcode', front, back ++ q'.bytes, by simp [hstored], hfront⟩

theorem Tiles.length_eq {base : UInt64} {placed : List Placement} {stored : List UInt8} (h : Tiles base placed stored) :
    stored.length = (placed.map fun q => q.bytes.length).sum := by
  induction h with
  | nil => rfl
  | cons rest hentry hcode ih =>
    rw [List.length_append, ih, List.map_cons, List.sum_cons]
    omega

/-- What was placed before lies below. -/
theorem Tiles.pairwise {base : UInt64} {placed : List Placement} {stored : List UInt8} (h : Tiles base placed stored) :
    placed.Pairwise fun q q' => q'.entry.addr.toNat + q'.bytes.length ≤ q.entry.addr.toNat := by
  induction h with
  | nil => exact .nil
  | @cons placed stored q rest hentry hcode ih =>
    refine .cons (fun q' hq' => ?_) ih
    obtain ⟨_, front, back, hstored, hfront⟩ := rest.of_mem hq'
    have hlength : stored.length = front.length + (q'.bytes.length + back.length) := by
      rw [hstored, List.length_append, List.length_append]
    omega

namespace CodeBlock

variable {b b' b'' : CodeBlock} {asm : Assembly} {bytes : List UInt8} {ptr : CodePtr}

/-- The block lies in the address space, and its used part has the bytes of its placements. -/
structure Tidy (b : CodeBlock) : Prop where
  fits : b.base.toNat + b.capacity ≤ UInt64.size
  used_le : b.used ≤ b.capacity
  written : b.used ≤ b.memory.stored.length
  tiles : Tiles b.base b.placed b.code

theorem Tidy.le_remaining_iff (h : b.Tidy) {n : Nat} : n ≤ b.remaining ↔ b.used + n ≤ b.capacity := by
  have hused := h.used_le
  simp only [remaining, capacity] at hused ⊢
  omega

/-- Bytes are only added. -/
structure Appends (b b' : CodeBlock) : Prop where
  base_eq : b'.base = b.base
  capacity_eq : b'.capacity = b.capacity
  code : b.code <+: b'.code
  placed : b.placed ⊆ b'.placed

namespace Appends

theorem refl (b : CodeBlock) : Appends b b := ⟨rfl, rfl, List.prefix_refl _, fun _ h => h⟩

theorem trans (h : Appends b b') (h' : Appends b' b'') : Appends b b'' :=
  ⟨h'.base_eq.trans h.base_eq, h'.capacity_eq.trans h.capacity_eq, h.code.trans h'.code,
    fun _ hq => h'.placed (h.placed hq)⟩

theorem used_le (h : Appends b b') : b.used ≤ b'.used := by
  rw [← b.length_code, ← b'.length_code]
  exact h.code.length_le

end Appends

theorem Adds.appends (h : b.Adds asm bytes b') : b.Appends b' := by
  refine ⟨h.base_eq, h.capacity_eq, ?_, ?_⟩
  · rw [h.code_eq]
    exact List.prefix_append _ _
  · rw [h.placed_eq]
    exact List.subset_cons_self _ _

theorem Retains.appends (h : b.Retains b') : b.Appends b' := by
  refine ⟨h.base_eq, h.capacity_eq, ?_, ?_⟩
  · rw [h.code_eq]
  · rw [h.placed_eq]
    exact fun _ hq => hq

/-! ### Addresses and bytes -/

/-- The block contains the addresses of its used part. -/
theorem contains_iff (b : CodeBlock) (ptr : CodePtr) :
    b.contains ptr = true ↔ b.base.toNat ≤ ptr.addr.toNat ∧ ptr.addr.toNat < b.base.toNat + b.used := by
  unfold contains offset?
  by_cases hbase : b.base.toNat ≤ ptr.addr.toNat
  · simp only [if_pos hbase, decide_eq_true_eq]
    omega
  · simp [hbase]

theorem Appends.contains (h : Appends b b') (hc : b.contains ptr = true) : b'.contains ptr = true := by
  have hused := h.used_le
  rw [contains_iff] at hc ⊢
  rw [h.base_eq]
  omega

/-- What is read in the used part is code. -/
private theorem read?_code (hle : b.used ≤ b.capacity) {offset n : Nat} (h : offset + n ≤ b.used) :
    b.memory.read? offset n = some ((b.code.drop offset).take n) := by
  have hsize : offset + n ≤ b.memory.size := h.trans hle
  rw [Memory.read?_eq, if_pos hsize]
  refine congrArg some (List.ext_getElem? fun k => ?_)
  by_cases hk : k < n
  · rw [List.getElem?_map, List.getElem?_range' hk, List.getElem?_take_of_lt hk, List.getElem?_drop, code,
      Memory.getElem?_front _ (by omega), Nat.one_mul]
    rfl
  · rw [List.getElem?_eq_none (by simpa using hk), List.getElem?_eq_none (by rw [List.length_take]; omega)]

/-- Bytes can be read inside the used part. -/
theorem Tidy.bytesAt?_eq (h : b.Tidy) (ptr : CodePtr) (n : Nat) :
    b.bytesAt? ptr n =
      if b.base.toNat ≤ ptr.addr.toNat ∧ ptr.addr.toNat + n ≤ b.base.toNat + b.used then
        some ((b.code.drop (ptr.addr.toNat - b.base.toNat)).take n)
      else none := by
  unfold bytesAt? offset?
  by_cases hbase : b.base.toNat ≤ ptr.addr.toNat
  · by_cases hend : ptr.addr.toNat + n ≤ b.base.toNat + b.used
    · have hoff : ptr.addr.toNat - b.base.toNat + n ≤ b.used := by omega
      simp only [if_pos hbase, if_pos hoff]
      rw [if_pos ⟨hbase, hend⟩, read?_code h.used_le hoff]
    · have hoff : ¬ptr.addr.toNat - b.base.toNat + n ≤ b.used := by omega
      simp only [if_pos hbase, if_neg hoff]
      rw [if_neg (fun hc => hend hc.2)]
  · simp only [if_neg hbase]
    rw [if_neg (fun hc => hbase hc.1)]

theorem Tidy.bytesAt?_isSome (h : b.Tidy) (ptr : CodePtr) (n : Nat) :
    (b.bytesAt? ptr n).isSome = true ↔
      b.base.toNat ≤ ptr.addr.toNat ∧ ptr.addr.toNat + n ≤ b.base.toNat + b.used := by
  rw [h.bytesAt?_eq]
  split
  · rename_i hin
    exact iff_of_true rfl hin
  · rename_i hout
    exact iff_of_false (by simp) hout

/-- What could be read once can be read for ever. -/
theorem Appends.bytesAt? (h : Appends b b') (ht : b.Tidy) (ht' : b'.Tidy) {n : Nat} {bytes : List UInt8}
    (hb : b.bytesAt? ptr n = some bytes) : b'.bytesAt? ptr n = some bytes := by
  have hused := h.used_le
  have hlen := b.length_code
  obtain ⟨hbase, hend⟩ := (ht.bytesAt?_isSome ptr n).1 (Option.isSome_of_mem hb)
  rw [ht.bytesAt?_eq, if_pos ⟨hbase, hend⟩] at hb
  rw [ht'.bytesAt?_eq, h.base_eq, if_pos ⟨hbase, by omega⟩, ← hb]
  obtain ⟨more, hmore⟩ := h.code
  have hdrop : n ≤ (b.code.drop (ptr.addr.toNat - b.base.toNat)).length := by
    rw [List.length_drop]
    omega
  rw [← hmore, List.drop_append_of_le_length (by omega), List.take_append_of_le_length hdrop]

/-- The bytes of a placement are found at its entry. -/
theorem Tidy.bytesAt?_placed (h : b.Tidy) {q : Placement} (hq : q ∈ b.placed) :
    q.code.encode q.entry.addr = .ok q.bytes ∧ b.bytesAt? q.entry q.bytes.length = some q.bytes := by
  obtain ⟨hcode, front, back, hstored, hfront⟩ := h.tiles.of_mem hq
  refine ⟨hcode, ?_⟩
  have hlen : b.used = front.length + (q.bytes.length + back.length) := by
    rw [← b.length_code, hstored]
    simp
  rw [h.bytesAt?_eq, if_pos (by omega), hstored, hfront]
  simp

/-! ### One placement -/

theorem Tidy.adds (h : b.Tidy) (hadds : b.Adds asm bytes b') : b'.Tidy := by
  refine ⟨?_, hadds.used_le, ?_, ?_⟩
  · rw [hadds.base_eq, hadds.capacity_eq]
    exact h.fits
  · rw [hadds.length_stored]
    exact le_max_right _ _
  · rw [hadds.base_eq, hadds.placed_eq, hadds.code_eq]
    refine .cons h.tiles ?_ hadds.encode_eq
    rw [toNat_next h.fits hadds.used_lt, length_code]

theorem Tidy.retains (h : b.Tidy) (hretains : b.Retains b') : b'.Tidy := by
  refine ⟨?_, ?_, ?_, ?_⟩
  · rw [hretains.base_eq, hretains.capacity_eq]
    exact h.fits
  · rw [hretains.used_eq, hretains.capacity_eq]
    exact h.used_le
  · rw [hretains.used_eq]
    exact h.written.trans hretains.stored_le
  · rw [hretains.base_eq, hretains.placed_eq, hretains.code_eq]
    exact h.tiles

/-- A placement keeps a block tidy and only adds bytes to it. -/
theorem Tidy.place (h : b.Tidy) (asm : Assembly) : (b.place asm).2.Tidy ∧ b.Appends (b.place asm).2 := by
  rcases place_cases b asm with ⟨bytes, b', hp, hadds⟩ | ⟨e, b', hp, hretains⟩
  · rw [hp]
    exact ⟨h.adds hadds, hadds.appends⟩
  · rw [hp]
    exact ⟨h.retains hretains, hretains.appends⟩

/-- A placement that fails leaves the block as it is. -/
theorem Granted.place_error (h : b.Granted) (ht : b.Tidy) {e : Error} (he : (b.place asm).1 = .error e) :
    (b.place asm).2 = b := by
  rcases h.place_cases asm with ⟨bytes, b', hp, _⟩ | ⟨e', b', hp, _, hsame, _⟩
  · rw [hp] at he
    cases he
  · rw [hp]
    exact hsame ht.written

/-- Code that can be encoded is refused only for want of space. -/
theorem Granted.place_error_bufferFull (h : b.Granted) (hused : b.used ≤ b.capacity)
    (henc : asm.encode b.next.addr = .ok bytes) {e : Error} (he : (b.place asm).1 = .error e) :
    ∃ needed available, e = .bufferFull needed available := by
  rcases h.place_cases asm with ⟨_, b', hp, _⟩ | ⟨e', b', hp, _, _, hfull⟩
  · rw [hp] at he
    cases he
  · rw [hp] at he
    cases he
    exact (hfull bytes henc).2 hused

/-- Code is placed exactly when it can be encoded and fits. -/
theorem Granted.place_ok_iff (h : b.Granted) (asm : Assembly) :
    (∃ q, (b.place asm).1 = .ok q) ↔
      ∃ code, asm.encode b.next.addr = .ok code ∧ code.length ≤ b.remaining ∧ b.used < b.capacity := by
  rcases h.place_cases asm with ⟨bytes, b', hp, hadds, _⟩ | ⟨e, b', hp, _, _, hfull⟩
  · rw [hp]
    exact iff_of_true ⟨_, rfl⟩ ⟨bytes, hadds.encode_eq, hadds.length_le, hadds.used_lt⟩
  · rw [hp]
    refine iff_of_false (by simp) ?_
    rintro ⟨code, henc, hlen, hlt⟩
    exact absurd hlt (Nat.not_lt.2 ((hfull code henc).1 hlen))

theorem tidy_new {host : Host} {size : Nat} (hnew : CodeBlock.new host size = .ok b)
    (hfits : b.base.toNat + b.capacity ≤ UInt64.size) : b.Tidy ∧ b.used = 0 := by
  obtain ⟨base, capacity, answers, rfl, -⟩ := new_eq_ok hnew
  exact ⟨⟨hfits, Nat.zero_le _, Nat.le_refl _, .nil⟩, rfl⟩

/-- A new block whose host refuses nothing is executable, and nothing is stored in it. -/
theorem granted_new {host : Host} {size : Nat} (hnew : CodeBlock.new host size = .ok b) (hhost : host.answers = []) :
    b.Granted ∧ b.memory.stored = [] := by
  obtain ⟨base, capacity, answers, rfl, hanswers⟩ := new_eq_ok hnew
  exact ⟨⟨rfl, hanswers hhost⟩, rfl⟩

/-! ### Runs -/

/-- Places one assembly after the other: what each placement returned, and the block after them. -/
def placeAll (b : CodeBlock) : List Assembly → List (Except Error Placement) × CodeBlock
  | [] => ([], b)
  | asm :: rest =>
    let (result, b) := b.place asm
    let (results, b) := placeAll b rest
    (result :: results, b)

/-- The bytes that placements which succeeded have taken up. -/
def placedBytes (results : List (Except Error Placement)) : Nat :=
  ((results.filterMap Except.toOption).map fun q => q.bytes.length).sum

theorem Tidy.placeAll (h : b.Tidy) (asms : List Assembly) :
    (b.placeAll asms).2.Tidy ∧ b.Appends (b.placeAll asms).2 ∧
      (b.placeAll asms).2.used = b.used + placedBytes (b.placeAll asms).1 := by
  induction asms generalizing b with
  | nil => exact ⟨h, .refl b, rfl⟩
  | cons asm rest ih =>
    obtain ⟨htidy, happends⟩ := h.place asm
    obtain ⟨htidy', happends', hused⟩ := ih htidy
    refine ⟨htidy', happends.trans happends', hused.trans ?_⟩
    rcases place_cases b asm with ⟨bytes, b', hp, hadds⟩ | ⟨e, b', hp, hretains⟩
    · simp only [CodeBlock.placeAll, hp, placedBytes, hadds.used_eq, List.filterMap_cons, Except.toOption,
        List.map_cons, List.sum_cons]
      omega
    · simp only [CodeBlock.placeAll, hp, placedBytes, hretains.used_eq, List.filterMap_cons, Except.toOption]

/-- While the host refuses nothing, the block is executable and nothing is stored after its used part. -/
theorem Granted.placeAll (h : b.Granted) (ht : b.Tidy) (hblank : b.memory.stored.length ≤ b.used)
    (asms : List Assembly) :
    (b.placeAll asms).2.Granted ∧ (b.placeAll asms).2.memory.stored.length ≤ (b.placeAll asms).2.used := by
  induction asms generalizing b with
  | nil => exact ⟨h, hblank⟩
  | cons asm rest ih =>
    have hblank' : (b.place asm).2.memory.stored.length ≤ (b.place asm).2.used := by
      rcases h.place_cases asm with ⟨bytes, b', hp, hadds, _⟩ | ⟨e, b', hp, _, hsame, _⟩
      · rw [hp, hadds.length_stored]
        exact max_le (hblank.trans hadds.appends.used_le) le_rfl
      · rw [hp, hsame ht.written]
        exact hblank
    exact ih (h.place asm) (ht.place asm).1 hblank'

/-- After any sequence of placements in a new block, if the host refuses no change of protection: the block is
executable, its used part holds the code of those that succeeded and the rest is blank; the next one succeeds exactly if
its code fits, is then found at its address for ever, and changes nothing otherwise. -/
theorem placeAll_disciplined {host : Host} {size : Nat} {b₀ : CodeBlock} (hnew : CodeBlock.new host size = .ok b₀)
    (hhost : host.answers = []) (hfits : b₀.base.toNat + b₀.capacity < UInt64.size) (before : List Assembly) :
    let base := b₀.base
    let b := (b₀.placeAll before).2
    b.base = base ∧ b.capacity = b₀.capacity ∧ b.memory.isExecutable = true ∧ b.memory.isWritable = false ∧
      b.used = placedBytes (b₀.placeAll before).1 ∧ b.used ≤ b.capacity ∧
      (∀ i, b.used ≤ i → b.memory.byteAt i = 0) ∧
      (∀ ptr, b.contains ptr = true ↔ base.toNat ≤ ptr.addr.toNat ∧ ptr.addr.toNat < base.toNat + b.used) ∧
      (∀ ptr n, (b.bytesAt? ptr n).isSome = true ↔
        base.toNat ≤ ptr.addr.toNat ∧ ptr.addr.toNat + n ≤ base.toNat + b.used) ∧
      ∀ asm,
        ((∃ q, (b.place asm).1 = .ok q) ↔
          ∃ code, asm.encode (base + UInt64.ofNat b.used) = .ok code ∧ code.length ≤ b.remaining ∧
            b.used < b.capacity) ∧
        (∀ e, (b.place asm).1 = .error e → (b.place asm).2 = b) ∧
        ∀ q, (b.place asm).1 = .ok q →
          q.entry.addr.toNat = base.toNat + b.used ∧ asm.encode q.entry.addr = .ok q.bytes ∧
            ∀ later, ((b.place asm).2.placeAll later).2.bytesAt? q.entry q.bytes.length = some q.bytes := by
  obtain ⟨htidy₀, hused₀⟩ := tidy_new hnew hfits.le
  obtain ⟨hgranted₀, hstored₀⟩ := granted_new hnew hhost
  obtain ⟨htidy, happends, hused⟩ := htidy₀.placeAll before
  obtain ⟨hgranted, hblank⟩ := hgranted₀.placeAll htidy₀ (by simp [hstored₀]) before
  intro base b
  have hbase : b.base = base := happends.base_eq
  refine ⟨hbase, happends.capacity_eq, hgranted.isExecutable, hgranted.isWritable, ?_, htidy.used_le, ?_, ?_, ?_, ?_⟩
  · simpa [hused₀] using hused
  · intro i hi
    rw [Memory.byteAt, List.getD_eq_default _ _ (hblank.trans hi)]
  · intro ptr
    rw [← hbase]
    exact contains_iff b ptr
  · intro ptr n
    rw [← hbase]
    exact htidy.bytesAt?_isSome ptr n
  · intro asm
    have hnext : b.next.addr = base + UInt64.ofNat b.used := by rw [next, hbase]
    refine ⟨hnext ▸ hgranted.place_ok_iff asm, fun e => hgranted.place_error htidy, fun q hq => ?_⟩
    rcases place_cases b asm with ⟨bytes, b', hp, hadds⟩ | ⟨e', b', hp, _⟩
    · rw [hp] at hq ⊢
      cases hq
      refine ⟨by rw [toNat_next htidy.fits hadds.used_lt, hbase], hadds.encode_eq, fun later => ?_⟩
      have htidy' := htidy.adds hadds
      obtain ⟨htidy'', happends'', _⟩ := htidy'.placeAll later
      have hmem : ⟨b.next, asm, bytes⟩ ∈ b'.placed := by
        rw [hadds.placed_eq]
        exact List.mem_cons_self
      exact happends''.bytesAt? htidy' htidy'' (htidy'.bytesAt?_placed hmem).2
    · rw [hp] at hq
      cases hq

/-- Of four assemblies one has no encoding and one no bytes; a fifth follows the code of the others. -/
theorem placeAll_disciplined_onePage :
    ∃ b₀, CodeBlock.new (.lending 0x10000 0x10000) 1 = .ok b₀ ∧ b₀.base.toNat + b₀.capacity < UInt64.size ∧
      let b := (b₀.placeAll
        [[.push .rbx, .ret], [.mov (.imm 1) (.reg .rax)], [], [.mov (.reg .rax) (.imm 42), .ret]]).2
      b.memory.isExecutable = true ∧ b.used = 10 ∧
        (b.place [.pop .r12, .ret]).1 = .ok ⟨⟨0x1000A⟩, [.pop .r12, .ret], [0x41, 0x5C, 0xC3]⟩ ∧
        ∀ later, ((b.place [.pop .r12, .ret]).2.placeAll later).2.bytesAt? ⟨0x1000A⟩ 3 = some [0x41, 0x5C, 0xC3] := by
  have hnew : CodeBlock.new (.lending 0x10000 0x10000) 1 =
      .ok ⟨⟨0x10000, 4096, .readExec, [], []⟩, 0, [], none⟩ := by decide +kernel
  have hfits : (0x10000 : UInt64).toNat + 4096 < UInt64.size := by decide
  obtain ⟨_, _, hexec, _, hused, _, _, _, _, hplace⟩ := placeAll_disciplined hnew rfl hfits
    [[.push .rbx, .ret], [.mov (.imm 1) (.reg .rax)], [], [.mov (.reg .rax) (.imm 42), .ret]]
  refine ⟨_, hnew, hfits, hexec, hused.trans (by decide +kernel), by decide +kernel, ?_⟩
  exact ((hplace [.pop .r12, .ret]).2.2 ⟨⟨0x1000A⟩, [.pop .r12, .ret], [0x41, 0x5C, 0xC3]⟩ (by decide +kernel)).2.2

end CodeBlock

end StackMachine.Native
