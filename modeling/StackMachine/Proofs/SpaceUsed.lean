import Mathlib
import StackMachine.Proofs.InstalledEntries
import StackMachine.Proofs.SpaceAccounting

/-!
# The space that a compiler has used

A compiler that is never asked to compile a method again holds the trampoline and, one after the other, the code of the
methods that it has installed.  In a block of at most 2 GiB all calls in that code are near, so the space that is used
is known from the methods alone.

* `Method.codeSize_congr`: the size of a method depends on its instructions and on the numbers of arguments at its call
  sites.
* `Stands.near_calls`: calls in code that stands have the short form.
* `Workspace.Ledger`: what a compiler has installed since it was mapped, while others may have done anything.
* `Ledger.accounts`: the ledger and the placements in the block correspond.
-/

namespace StackMachine

/-- What the size of a method depends on. -/
theorem Method.codeSize_congr {m m' : Method} (hinsns : m.sweep.insns.map Prod.snd = m'.sweep.insns.map Prod.snd)
    (hargc : m.sites.map CallSite.argc = m'.sites.map CallSite.argc) : m.codeSize = m'.codeSize := by
  have hsites : ∀ (n : Method) (idx : UInt64),
      n.argc idx = ((n.sites.map CallSite.argc)[idx.toNat]?.map UInt64.toNat).getD 0 := by
    intro n idx
    rw [Array.getElem?_map, Option.map_map]
    rfl
  have hinsn : m.insnSize = m'.insnSize := by
    funext i
    cases i with
    | send idx => simp only [insnSize, hsites, hargc]
    | _ => rfl
  have hmap : ∀ n : Method, n.codeSize = ((n.sweep.insns.map Prod.snd).map n.insnSize).sum := by
    intro n
    rw [List.map_map]
    rfl
  rw [hmap m, hmap m', hinsns, hinsn]

namespace X86.Assembly

variable {before after : Assembly} {operand : Operand} {target : UInt64} {code : List UInt8}

/-- What stands before a call is encoded for itself, since a call does not use a comparison. -/
theorem encode_before_call (h : encode (before ++ .call operand :: after) target = .ok code) :
    ∃ front back, before.encode target = .ok front ∧
      code = front ++ (Insn.callForms (target + UInt64.ofNat front.length) operand).flatMap Form.bytes ++ back := by
  obtain ⟨hsound, hused⟩ := sound_of_encode h
  have hbefore : ∃ front, before.encode target = .ok front := by
    rw [exists_encode_iff]
    intro index e hfault
    cases hfault with
    | dangling hdangling =>
      obtain ⟨⟨dst, src, hcompare⟩, hnext⟩ := hdangling
      have hlt := (List.getElem?_eq_some_iff.1 hcompare).1
      refine hused index ⟨⟨dst, src, ?_⟩, fun dst' src' => ?_⟩
      · rw [List.getElem?_append_left hlt, hcompare]
      · by_cases hlast : index + 1 < before.length
        · rw [List.getElem?_append_left hlast]
          exact hnext dst' src'
        · rw [show index + 1 = before.length by omega, List.getElem?_append_right (Nat.le_refl _)]
          simp
    | insn hi _ hfaulty => exact hsound _ (List.mem_append_left _ (List.mem_of_getElem? hi)) _ hfaulty
  obtain ⟨front, hfront⟩ := hbefore
  unfold encode at h hfront
  rw [encodeFrom_append hfront] at h
  obtain ⟨rest, hrest, rfl⟩ := map_eq_ok h
  obtain ⟨fs, back, hfs, _, rfl⟩ := encodeFrom_cons hrest
  cases hfs
  exact ⟨front, back, hfront, by rw [List.append_assoc]⟩

end X86.Assembly

namespace Native

variable {p : Program} {b : CodeBlock} {es : Entries} {id : Nat} {q : Placement}

/-- Each call in the placed code is near: it takes five bytes, with the distance to its target. -/
def Placement.NearCalls (q : Placement) : Prop :=
  ∀ (before : X86.Assembly) operand after, q.code = before ++ .call operand :: after →
    ∃ front offset back, before.encode q.entry.addr = .ok front ∧
      (X86.Insn.call operand).forms (q.entry.addr + UInt64.ofNat front.length) = .ok [.callRel offset] ∧
      (X86.Form.callRel offset).bytes.length = 5 ∧ q.bytes = front ++ (X86.Form.callRel offset).bytes ++ back

theorem Stands.near_calls (h : Stands p b es id q) (hb : b.Tidy) (hcap : b.capacity ≤ 2 ^ 31) : q.NearCalls := by
  intro before operand after heq
  obtain ⟨method, _, hg⟩ := h.generated
  obtain ⟨hencode, hat⟩ := hb.bytesAt?_placed h.placed
  obtain ⟨hbase, hend⟩ := (hb.bytesAt?_isSome _ _).1 (Option.isSome_of_mem hat)
  have hmem : X86.Insn.call operand ∈ q.code := by simp [heq]
  obtain ⟨_, _, _, c, entry, _, _, ⟨_, hc, hlt⟩, rfl⟩ := hg.listed.call_mem hmem
  rw [heq] at hencode
  obtain ⟨front, back, hfront, hbytes⟩ := X86.Assembly.encode_before_call hencode
  have hlength : front.length + 5 ≤ q.bytes.length := by
    have hcall := X86.Insn.length_callForms (q.entry.addr + UInt64.ofNat front.length) entry.addr.toInt64
    rw [hbytes, List.length_append, List.length_append]
    omega
  have hhere : q.entry.addr + UInt64.ofNat front.length = UInt64.ofNat (q.entry.addr.toNat + front.length) := by
    rw [UInt64.ofNat_add, UInt64.ofNat_toNat]
  have hlo := ((CodeBlock.contains_iff _ _).1 hc).1
  have hused := hb.used_le
  have hbelow : entry.addr.toNat ≤ q.entry.addr.toNat + front.length := by omega
  have hnear : q.entry.addr.toNat + front.length + 5 ≤ entry.addr.toNat + 2 ^ 31 := by omega
  obtain ⟨offset, hforms⟩ := X86.Insn.callForms_near hbelow hnear
  rw [hhere, hforms] at hbytes
  refine ⟨front, offset, back, hfront, ?_, X86.Form.length_bytes_callRel offset, by simpa using hbytes⟩
  rw [hhere, X86.Insn.forms, hforms]

/-! ### What a request adds -/

/-- The entries that an earlier table has not. -/
def Entries.since (es' es : Entries) : List (Nat × CodePtr) := es'.installed.filter fun x => (es.get? x.1).isNone

theorem Entries.since_eq {es' es : Entries} {added : List (Nat × CodePtr)}
    (h : es'.installed = added ++ es.installed) (hnew : ∀ x ∈ added, es.get? x.1 = none) : es'.since es = added := by
  have hold : es.installed.filter (fun x => (es.get? x.1).isNone) = [] := by
    rw [List.filter_eq_nil_iff]
    intro x hx hnone
    have hne := List.lookup_eq_none_iff.1 (Option.isNone_iff_eq_none.1 hnone) x hx
    simp at hne
  have hadded : added.filter (fun x => (es.get? x.1).isNone) = added := by
    rw [List.filter_eq_self]
    intro x hx
    rw [hnew x hx]
    rfl
  rw [since, h, List.filter_append, hold, hadded, List.append_nil]

/-- The placements of methods and their entries in the table are added side by side. -/
theorem Compiler.Installs.adds {s t : Compiler.State} {ids : List Nat} (h : Compiler.Installs p s ids t)
    (hs : s.Regular p) :
    ∃ added placements, t.entries.installed = added ++ s.entries.installed ∧
      t.block.placed = placements ++ s.block.placed ∧ (∀ x ∈ added, s.entries.get? x.1 = none) ∧
      List.Forall₂ (fun x q => q.entry = x.2 ∧ t.entries.get? x.1 = some x.2 ∧ Stands p t.block t.entries x.1 q)
        added placements := by
  induction h with
  | refl => exact ⟨[], [], rfl, rfl, List.forall_mem_nil _, .nil⟩
  | retain prior hb ih =>
    obtain ⟨added, placements, hentries, hplaced, hnew, hstand⟩ := ih
    refine ⟨added, placements, hentries, hb.placed_eq.trans hplaced, hnew, hstand.imp fun x q hq => ?_⟩
    obtain ⟨hq, hx, hst⟩ := hq
    exact ⟨hq, hx, hst.mono hb.appends fun _ _ h => h⟩
  | @step ids id method code entry t u prior hm hnone hg hf ih =>
    obtain ⟨added, placements, hentries, hplaced, hnew, hstand⟩ := ih
    obtain ⟨hreg, hext, _⟩ := prior.regular hs
    obtain ⟨_, hext', hentry, bytes, hadds, hentries'⟩ := Compiler.finish_ok hreg hm hnone hg hf
    have hget : u.entries.get? id = some entry := by
      rw [hentries', Entries.get?_cons, if_pos rfl]
    refine ⟨(id, entry) :: added, ⟨entry, code, bytes⟩ :: placements, ?_, ?_, ?_, .cons ?_ ?_⟩
    · rw [hentries', hentries, List.cons_append]
    · rw [hadds.placed_eq, hplaced, hentry, List.cons_append]
    · exact List.forall_mem_cons.2 ⟨hext.get?_eq_none hnone, hnew⟩
    · exact ⟨rfl, hget, Compiler.finish_stands hreg hm hnone hg hf hadds⟩
    · refine hstand.imp fun x q hq => ?_
      obtain ⟨hq, hx, hst⟩ := hq
      exact ⟨hq, hext'.kept _ _ hx, hst.mono hadds.appends hext'.kept⟩

/-! ### The ledger of a compiler -/

/-- A method of a program, both by number, that was installed, and its entry. -/
structure Installation where
  program : Nat
  method : Nat
  entry : CodePtr
deriving DecidableEq, Repr

/-- The trampoline takes the same space everywhere. -/
theorem Jit.length_trampoline {addr : UInt64} {bytes : List UInt8} (h : trampolineCode.encode addr = .ok bytes) :
    bytes.length = 17 := by
  have hcode : ∃ code, trampolineCode.encode addr = .ok code ∧ code.length = 17 := ⟨_, rfl, rfl⟩
  obtain ⟨code, hcode, hlen⟩ := hcode
  rw [h] at hcode
  cases hcode
  exact hlen

namespace Workspace

/-- What the compiler with the number `n` has installed since it was mapped, newest first, if it was never asked to
compile a method again.  Other compilers may have served any requests. -/
inductive Ledger (n : Nat) : Workspace → List Installation → Prop where
  | new {w host settings j notices} (hw : Reachable w) (hn : w.jits.length = n)
      (hj : Jit.new host settings = .ok (j, notices)) (hfits : j.block.base.toNat + j.block.capacity ≤ UInt64.size)
      (hapart : ∀ j' ∈ w.jits, j.block.Apart j'.block) : Ledger n ⟨j :: w.jits, w.tables⟩ []
  | load {w l} (h : Ledger n w l) (p : Program) : Ledger n ⟨w.jits, (p, .empty) :: w.tables⟩ l
  | map {w l host settings j notices} (h : Ledger n w l) (hj : Jit.new host settings = .ok (j, notices))
      (hfits : j.block.base.toNat + j.block.capacity ≤ UInt64.size) (hapart : ∀ j' ∈ w.jits, j.block.Apart j'.block) :
      Ledger n ⟨j :: w.jits, w.tables⟩ l
  | other {w l i k j p es} (h : Ledger n w l) (hj : w.jits[i]? = some j) (hi : i + n + 1 ≠ w.jits.length)
      (ht : w.tables[k]? = some (p, es)) (r : Request) :
      Ledger n ⟨w.jits.set i (j.serve p es r).1, w.tables.set k (p, (j.serve p es r).2)⟩ l
  | request {w l i k j p es} (h : Ledger n w l) (hj : w.jits[i]? = some j) (hi : i + n + 1 = w.jits.length)
      (ht : w.tables[k]? = some (p, es)) (r : Request) (hr : ∀ id, r ≠ .recompile id) :
      Ledger n ⟨w.jits.set i (j.serve p es r).1, w.tables.set k (p, (j.serve p es r).2)⟩
        (((j.serve p es r).2.since es).map (fun x => ⟨w.tables.length - 1 - k, x.1, x.2⟩) ++ l)

variable {w w' : Workspace} {n : Nat} {l : List Installation}

theorem Ledger.reachable (h : Ledger n w l) : w.Reachable := by
  induction h with
  | new hw _ hj hfits hapart => exact hw.map hj hfits hapart
  | load _ p ih => exact ih.load p
  | map _ hj hfits hapart ih => exact ih.map hj hfits hapart
  | other _ hj _ ht r ih => exact ih.request hj ht r
  | request _ hj _ ht r _ ih => exact ih.request hj ht r

/-- The placement is that of the method which was installed. -/
def Books (w : Workspace) (b : CodeBlock) (x : Installation) (q : Placement) : Prop :=
  q.entry = x.entry ∧ ∃ p es, w.table? x.program = some (p, es) ∧ es.get? x.method = some x.entry ∧
    Stands p b es x.method q

theorem Books.mono {b b' : CodeBlock} {x : Installation} {q : Placement} (h : w.Books b x q) (hk : w.Keeps w')
    (happ : b.Appends b') : w'.Books b' x q := by
  obtain ⟨hentry, p, es, ht, he, hst⟩ := h
  obtain ⟨es', ht', hkept⟩ := hk.tables ht
  exact ⟨hentry, p, es', ht', hkept _ _ he, hst.mono happ hkept⟩

/-- The block of the compiler holds the trampoline and then what the ledger says, one placement for each. -/
def Accounts (w : Workspace) (n : Nat) (l : List Installation) : Prop :=
  ∃ j q₀ placements, w.jit? n = some j ∧ q₀.code = Jit.trampolineCode ∧ j.block.placed = placements ++ [q₀] ∧
    List.Forall₂ (w.Books j.block) l placements

/-- A step that leaves the compiler alone. -/
theorem Accounts.step (h : w.Accounts n l) (hw : w.Reachable) (hs : w.Step w') (hsame : ∀ j, w.jit? n = some j →
    w'.jit? n = some j) : w'.Accounts n l := by
  obtain ⟨j, q₀, placements, hj, hcode, hplaced, hbooks⟩ := h
  exact ⟨j, q₀, placements, hsame j hj, hcode, hplaced, hbooks.imp fun x q hx => hx.mono (hs.keeps hw) (.refl _)⟩

/-- What a request installs is placed on top. -/
theorem Accounts.request {i k : Nat} {j : Jit} {p : Program} {es : Entries} (h : w.Accounts n l) (hw : w.Reachable)
    (hj : w.jits[i]? = some j) (hi : i + n + 1 = w.jits.length) (ht : w.tables[k]? = some (p, es)) {r : Request}
    (hr : ∀ id, r ≠ .recompile id) :
    Accounts ⟨w.jits.set i (j.serve p es r).1, w.tables.set k (p, (j.serve p es r).2)⟩ n
      (((j.serve p es r).2.since es).map (fun x => ⟨w.tables.length - 1 - k, x.1, x.2⟩) ++ l) := by
  obtain ⟨j', q₀, placements, hj', hcode, hplaced, hbooks⟩ := h
  have hlt := (List.getElem?_eq_some_iff.1 hj).1
  have hkt := (List.getElem?_eq_some_iff.1 ht).1
  obtain rfl : j' = j := by
    rw [jit?, List.getElem?_reverse (by omega), show w.jits.length - 1 - n = i by omega, hj] at hj'
    exact (Option.some.inj hj').symm
  have hreg := hw.standing.regular hw.sound (List.mem_of_getElem? hj) (List.mem_of_getElem? ht)
  obtain ⟨ids, t, hinstalls, hentries, hblock⟩ := Jit.serve_installs_only hreg hr
  obtain ⟨added, placements', hadded, hplaced', hnew, hstand⟩ := hinstalls.adds hreg
  obtain ⟨_, _, happ⟩ := hinstalls.regular hreg
  have hkeeps := (Step.request hj ht r).keeps hw
  have hsince : (j'.serve p es r).2.since es = added := by
    rw [hentries]
    exact Entries.since_eq hadded hnew
  have htable : table? ⟨w.jits.set i (j'.serve p es r).1, w.tables.set k (p, (j'.serve p es r).2)⟩
      (w.tables.length - 1 - k) = some (p, t.entries) := by
    rw [table?, getElem?_reverse_set hkt, if_pos (by omega), hentries]
  refine ⟨(j'.serve p es r).1, q₀, placements' ++ placements, ?_, hcode, ?_, ?_⟩
  · rw [jit?, getElem?_reverse_set hlt, if_pos hi]
  · rw [hblock, hplaced', hplaced, List.append_assoc]
  · rw [hsince, hblock]
    refine List.rel_append ?_ ?_
    · rw [List.forall₂_map_left_iff]
      refine hstand.imp fun x q hx => ?_
      exact ⟨hx.1, p, t.entries, htable, hx.2.1, hx.2.2⟩
    · exact hbooks.imp fun x q hx => hx.mono hkeeps happ

theorem Ledger.accounts (h : Ledger n w l) : w.Accounts n l := by
  induction h with
  | @new w host settings j notices hw hn hj hfits hapart =>
    obtain ⟨_, _, _, _, q₀, hplace, _⟩ := Jit.new_eq_ok hj
    obtain ⟨hadds, _⟩ := CodeBlock.place_adds hplace
    refine ⟨j, _, [], ?_, rfl, hadds.placed_eq, .nil⟩
    simp [jit?, ← hn]
  | load h p ih => exact ih.step h.reachable (.load p) fun _ hj => hj
  | map h hj hfits hapart ih =>
    exact ih.step h.reachable (.map hj hfits hapart) fun _ hj => getElem?_reverse_cons _ hj
  | @other w l i k j p es h hj hi ht r ih =>
    refine ih.step h.reachable (.request hj ht r) fun j' hj' => ?_
    rw [jit?, getElem?_reverse_set (List.getElem?_eq_some_iff.1 hj).1, if_neg hi]
    exact hj'
  | request h hj hi ht r hr ih => exact ih.request h.reachable hj hi ht hr

/-- Bytes of the code of a method that was installed. -/
def codeSize (w : Workspace) (x : Installation) : Nat :=
  ((w.table? x.program).map fun t => t.1.codeSize x.method).getD 0

/-- The placement is the code of the method that was installed: so long as its size, found in the block, with near
calls. -/
structure Occupies (w : Workspace) (b : CodeBlock) (x : Installation) (q : Placement) : Prop where
  books : w.Books b x q
  length_eq : q.bytes.length = w.codeSize x
  bytesAt? : b.bytesAt? x.entry (w.codeSize x) = some q.bytes
  near_calls : q.NearCalls

theorem Books.occupies {b : CodeBlock} {x : Installation} {q : Placement} (h : w.Books b x q) (hb : b.Tidy)
    (hcap : b.capacity ≤ 2 ^ 31) : w.Occupies b x q := by
  obtain ⟨hentry, p, es, ht, _, hst⟩ := id h
  have hsize : q.bytes.length = w.codeSize x := by
    rw [hst.length_bytes hb hcap, codeSize, ht]
    rfl
  refine ⟨h, hsize, ?_, hst.near_calls hb hcap⟩
  rw [← hentry, ← hsize]
  exact (hb.bytesAt?_placed hst.placed).2

/-- No method is in the ledger twice, since its entry is the address of one placement. -/
theorem Books.nodup {b : CodeBlock} {placements : List Placement} (h : List.Forall₂ (w.Books b) l placements)
    (hb : b.Tidy)
    (hp : placements.Pairwise fun q q' => q'.entry.addr.toNat + q'.bytes.length ≤ q.entry.addr.toNat) :
    (l.map fun x => (x.program, x.method)).Nodup := by
  have hdistinct : placements.Pairwise fun q q' => some q.entry ≠ some q'.entry := by
    refine hp.imp_of_mem fun {q q'} _ hq' hbelow heq => ?_
    obtain ⟨x, _, _, p, es, _, _, hst⟩ := exists_of_forall₂ h hq'
    obtain ⟨method, _, hg⟩ := hst.generated
    have hpos := List.length_pos_iff.2 (X86.Assembly.encode_ne_nil hg.ne_nil (hb.bytesAt?_placed hst.placed).1)
    rw [Option.some.inj heq] at hbelow
    omega
  have hlookup : placements.map (fun q => some q.entry) =
      (l.map fun x => (x.program, x.method)).map fun key => (w.table? key.1).bind fun t => t.2.get? key.2 := by
    rw [List.map_map]
    refine map_of_forall₂ h fun x q hx => ?_
    obtain ⟨hentry, p, es, ht, he, _⟩ := hx
    simp [ht, he, hentry]
  have hnodup := List.pairwise_map.2 hdistinct
  rw [hlookup] at hnodup
  exact List.Nodup.of_map _ hnodup

/-- In a block of at most 2 GiB a compiler has used the space of the trampoline and of the methods that it has
installed.  Each of these takes its size, which depends on its instructions and numbers of arguments alone, in one range
of the block, and calls are near. -/
theorem Ledger.used_by_methods {j : Jit} (h : Ledger n w l) (hj : w.jit? n = some j)
    (hcap : j.block.capacity ≤ 2 ^ 31) :
    j.block.used = 17 + (l.map w.codeSize).sum ∧
      (∃ q₀ placements, j.block.placed = placements ++ [q₀] ∧ q₀.code = Jit.trampolineCode ∧ q₀.bytes.length = 17 ∧
        List.Forall₂ (w.Occupies j.block) l placements) ∧
      (j.block.placed.Pairwise fun q q' => q'.entry.addr.toNat + q'.bytes.length ≤ q.entry.addr.toNat) ∧
      (l.map fun x => (x.program, x.method)).Nodup ∧
      ∀ m m' : Method, m.sweep.insns.map Prod.snd = m'.sweep.insns.map Prod.snd →
        m.sites.map CallSite.argc = m'.sites.map CallSite.argc → m.codeSize = m'.codeSize := by
  obtain ⟨j', q₀, placements, hj', hcode, hplaced, hbooks⟩ := h.accounts
  rw [hj] at hj'
  cases hj'
  have hw := h.reachable
  have htidy := hw.standing.tidy j (mem_of_jit? hj)
  have hoccupies := hbooks.imp fun x q hx => hx.occupies htidy hcap
  have hpairwise := htidy.tiles.pairwise
  have hmem : q₀ ∈ j.block.placed := by simp [hplaced]
  have htrampoline : q₀.bytes.length = 17 := by
    have hencode := (htidy.bytesAt?_placed hmem).1
    rw [hcode] at hencode
    exact Jit.length_trampoline hencode
  refine ⟨?_, ⟨q₀, placements, hplaced, hcode, htrampoline, hoccupies⟩, hpairwise, ?_, ?_⟩
  · have hsizes : placements.map (fun q => q.bytes.length) = l.map w.codeSize :=
      map_of_forall₂ hoccupies fun _ _ hx => hx.length_eq
    rw [← j.block.length_code, htidy.tiles.length_eq, hplaced, List.map_append, List.sum_append, hsizes]
    simp [htrampoline]
    omega
  · rw [hplaced, List.pairwise_append] at hpairwise
    exact Books.nodup hbooks htidy hpairwise.1
  · intro m m' hinsns hargcs
    exact Method.codeSize_congr hinsns hargcs

/-- Method 1 is compiled, with method 0, after a request for a method that does not exist. -/
private theorem sumProgram_ledger :
    ∃ w l j, Ledger 0 w l ∧ w.jit? 0 = some j ∧ j.block.capacity ≤ 2 ^ 31 ∧
      l = [⟨0, 1, ⟨65588⟩⟩, ⟨0, 0, ⟨65553⟩⟩] ∧ l.map w.codeSize = [113, 35] := by
  have hnew : Ledger 0 ⟨[_], [(sumProgram, .empty)]⟩ [] :=
    .new (.load .empty sumProgram) rfl (show Jit.new (.lending 0x10000 0x1000000) .default = .ok (_, _) from rfl)
      (by decide +kernel) (List.forall_mem_nil _)
  have hplain : ∀ id id', Request.compile id ≠ .recompile id' := by
    intro id id' h
    cases h
  have hfails := hnew.request (show _ = some _ from List.getElem?_cons_zero) rfl List.getElem?_cons_zero (.compile 2)
    (hplain 2)
  have hmain := hfails.request (show _ = some _ from List.getElem?_cons_zero) rfl List.getElem?_cons_zero (.compile 1)
    (hplain 1)
  exact ⟨_, _, _, hmain, rfl, by decide +kernel, by decide +kernel, by decide +kernel⟩

/-- The trampoline and two methods, the callee first. -/
theorem Ledger.used_by_methods_sumProgram :
    ∃ w l j, Ledger 0 w l ∧ w.jit? 0 = some j ∧ j.block.capacity ≤ 2 ^ 31 ∧
      l = [⟨0, 1, ⟨65588⟩⟩, ⟨0, 0, ⟨65553⟩⟩] ∧ j.block.used = 17 + (113 + 35) ∧
      ∃ q₀ q₁ q₂, j.block.placed = [q₂, q₁, q₀] ∧ q₂.bytes.length = 113 ∧ q₁.bytes.length = 35 ∧ q₂.NearCalls := by
  obtain ⟨w, l, j, h, hj, hcap, hl, hsizes⟩ := sumProgram_ledger
  obtain ⟨hused, ⟨q₀, placements, hplaced, _, _, hoccupies⟩, _⟩ := h.used_by_methods hj hcap
  rw [hsizes] at hused
  rw [hl] at hoccupies hsizes
  cases hoccupies with
  | @cons _ q₂ _ _ h₂ hrest =>
    cases hrest with
    | @cons _ q₁ _ _ h₁ hrest =>
      cases hrest
      rw [List.map_cons, List.map_cons, List.map_nil, List.cons.injEq, List.cons.injEq] at hsizes
      exact ⟨w, l, j, h, hj, hcap, hl, hused, q₀, q₁, q₂, hplaced, h₂.length_eq.trans hsizes.1,
        h₁.length_eq.trans hsizes.2.1, h₂.near_calls⟩

end Workspace

end Native

end StackMachine
