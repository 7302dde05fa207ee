import Mathlib
import StackMachine.Program.Listing
import StackMachine.Proofs.FileText
import StackMachine.Proofs.Numerals
import StackMachine.Proofs.ProgramFiles

/-!
# Listings that are assembled again

The lines of a listing, without the positions, can be the body of a method in a program file.  The method that is built
from them has the stream that was listed, however the lines are laid out.  Calls are left out, whose lines show a call
site and not how it is written, and so are object references, which have no literals.

* `Insn.says_of_dressed`: a line says the instruction whose text it is.
* `Source.method_of_laid`: lines that are laid out as the texts of instructions give the stream of these instructions,
  in a file too (`Source.parse_laid`).
* `Method.code_of_decodes`: a stream that decodes to its end is that of its instructions.
-/

namespace StackMachine

open Mnemonic (Says Dressed Laid bodyWords lineWords)
open Text (IsWord)

/-! ### Instructions -/

theorem Opcode.isWord_name (op : Opcode) : IsWord op.name.toList := by
  cases op <;> decide

namespace Insn

/-- The instructions that a line can say in full. -/
def Writable : Insn → Prop
  | send _ => False
  | putObject v => v.IsLiteral
  | _ => True

variable {i : Insn} {line : String}

theorem says_of_dressed (hi : i.Writable) (h : Dressed i.text line) : Says (lineWords line) (.plain i) := by
  cases i with
  | getLocal idx =>
    rw [h.lineWords_pair (by decide) (Opcode.isWord_name .getLocal) (Decimal.isWord_ofNat _)]
    exact .getLocal (Decimal.uint64?_ofNat idx)
  | setLocal idx =>
    rw [h.lineWords_pair (by decide) (Opcode.isWord_name .setLocal) (Decimal.isWord_ofNat _)]
    exact .setLocal (Decimal.uint64?_ofNat idx)
  | putObject v =>
    rw [h.lineWords_pair (by decide) (Opcode.isWord_name .putObject) (Value.isWord_text hi)]
    exact .putObject (Value.parse_text hi)
  | jump offset =>
    rw [h.lineWords_pair (by decide) (Opcode.isWord_name .jump) (Decimal.isWord_ofInt _)]
    exact .jump (Decimal.int64?_ofInt offset)
  | branchIf offset =>
    rw [h.lineWords_pair (by decide) (Opcode.isWord_name .branchIf) (Decimal.isWord_ofInt _)]
    exact .branchIf (Decimal.int64?_ofInt offset)
  | send idx => cases hi
  | _ =>
    rw [h.lineWords_word (Opcode.isWord_name _)]
    exact .bare rfl

/-- Lines between the texts say nothing. -/
theorem says_of_laid {insns : List Insn} {lines : List String} (hi : ∀ i ∈ insns, i.Writable)
    (h : Laid (insns.map text) lines) :
    List.Forall₂ (fun words i => Says words (.plain i)) (bodyWords lines) insns := by
  generalize htexts : insns.map text = texts at h
  induction h generalizing insns with
  | nil =>
    rw [List.map_eq_nil_iff] at htexts
    subst htexts
    exact .nil
  | empty hline _ ih =>
    rw [Mnemonic.bodyWords_cons_empty hline.lineWords_empty]
    exact ih hi htexts
  | line hline _ ih =>
    obtain ⟨i, rest, rfl, rfl, rfl⟩ := List.map_eq_cons_iff.1 htexts
    obtain ⟨hfirst, hrest⟩ := List.forall_mem_cons.1 hi
    have hsays := says_of_dressed hfirst hline
    rw [Mnemonic.bodyWords_cons hsays.ne_nil]
    exact .cons hsays (ih hrest rfl)

end Insn

/-! ### Methods -/

theorem Draft.foldl_insn (insns : List Insn) (d : Draft) :
    insns.foldl insn d = ⟨d.code ++ (insns.flatMap Insn.encode).toArray, d.sites⟩ := by
  induction insns generalizing d with
  | nil => simp
  | cons i insns ih =>
    rw [List.foldl_cons, ih]
    simp [insn, ← Array.toList_inj]

namespace Source

variable {s : Source} {d : MethodSource} {insns : List Insn}

theorem method_of_laid (hi : ∀ i ∈ insns, i.Writable) (h : Laid (insns.map Insn.text) d.body) :
    s.method d = .ok ⟨d.name, d.locals, (insns.flatMap Insn.encode).toArray, #[]⟩ := by
  rw [method, draft_of_says (Insn.says_of_laid hi h), Draft.foldl_insn]
  simp [Except.map, Draft.method, Draft.empty]

theorem build_single {m : Method} (h : method ⟨d.name, none, [], [d]⟩ d = .ok m) :
    build ⟨d.name, none, [], [d]⟩ = .ok ⟨⟨#[m]⟩, 0, .nil, []⟩ := by
  have hmethods : [d].mapM (method ⟨d.name, none, [], [d]⟩) = .ok [m] := by
    rw [List.mapM_cons, h]
    rfl
  have hentry : resolve ⟨d.name, none, [], [d]⟩ d.name = some 0 := by
    simp [resolve]
  simp only [build, List.map_cons, List.map_nil, repeatedName?, List.not_mem_nil, if_false, hmethods, hentry]
  rfl

/-- A file with the lines as the body of its only method is read as the program of these instructions. -/
theorem parse_laid {lines : List String} (hi : ∀ i ∈ insns, i.Writable)
    (h : Laid (insns.map Insn.text) lines) (name : String) :
    Runnable.parse (fileText name lines) =
      .ok ⟨⟨#[⟨name, 0, (insns.flatMap Insn.encode).toArray, #[]⟩]⟩, 0, .nil, []⟩ := by
  rw [Runnable.parse, parse_fileText]
  exact build_single (method_of_laid hi h)

end Source

namespace Method

variable {m : Method}

/-- The lines of a method's listing, without the positions. -/
def texts (m : Method) : List String := (m.sweep.insns.map Prod.snd).map Insn.text

def listingHeader (m : Method) : String :=
  "== " ++ m.name ++ " (locals: " ++ Decimal.ofNat m.locals ++ ", words: " ++ Decimal.ofNat m.code.size ++ ")\n"

theorem code_of_decodes (h : m.sweep.error = none) :
    ((m.sweep.insns.map Prod.snd).flatMap Insn.encode).toArray = m.code := by
  have hfound : m.sweep.Found m.code 0 := Sweep.ofCodeFrom_found _ _
  have hwords := hfound.error_eq_none.1 h
  rw [List.flatMap_map, ← Array.toList_inj, ← hwords]
  rfl

theorem methodListing_of_decodes (p : Program) (h : m.sweep.error = none)
    (hsend : ∀ pc idx, (pc, .send idx) ∉ m.sweep.insns) :
    p.methodListing m = String.join (m.listingHeader ::
      m.sweep.insns.map fun x => Text.padLeft 4 '0' (Decimal.ofNat x.1) ++ " " ++ x.2.text ++ "\n") := by
  have hlines : (m.sweep.insns.map fun x => p.insnLine m x.1 x.2) =
      m.sweep.insns.map fun x => Text.padLeft 4 '0' (Decimal.ofNat x.1) ++ " " ++ x.2.text ++ "\n" := by
    refine List.map_congr_left fun x hx => ?_
    have htext : p.insnText m x.2 = x.2.text := by
      cases heq : x.2 with
      | send idx => exact absurd (heq ▸ hx) (hsend x.1 idx)
      | _ => rfl
    rw [Program.insnLine, htext]
  rw [← hlines]
  simp only [Program.methodListing, listingHeader, h, Option.map_none, Option.toList_none, List.append_nil]

/-- What is listed can be read.  The stream of a method decodes to its end, makes no calls and has literals only; its
lines may have been laid out with blanks, comments and empty lines.  A program with the lines as the body of its method
is built, and so is that body among others; the method has the stream that was listed. -/
theorem listing_assembles {lines : List String} (hdecodes : m.sweep.error = none)
    (hsend : ∀ pc idx, (pc, .send idx) ∉ m.sweep.insns)
    (hput : ∀ pc v, (pc, .putObject v) ∈ m.sweep.insns →
      v.isFixnum = true ∨ v = .nil ∨ v = .true ∨ v = .false)
    (hlines : Laid m.texts lines) :
    (∀ p : Program, p.methodListing m = String.join (m.listingHeader ::
      m.sweep.insns.map fun x => Text.padLeft 4 '0' (Decimal.ofNat x.1) ++ " " ++ x.2.text ++ "\n")) ∧
    (∀ name, Source.build ⟨name, none, [], [⟨name, 0, lines⟩]⟩ =
      .ok ⟨⟨#[⟨name, 0, m.code, #[]⟩]⟩, 0, .nil, []⟩) ∧
    ∀ (s : Source) (id : Nat) (d : MethodSource), s.methods[id]? = some d → d.body = lines →
      (∀ k e, s.build ≠ .error (.body d.name k e)) ∧
      ∀ r, s.build = .ok r → r.program.method? id = some ⟨d.name, d.locals, m.code, #[]⟩ := by
  have hwritable : ∀ i ∈ m.sweep.insns.map Prod.snd, i.Writable := by
    intro i hi
    obtain ⟨x, hx, rfl⟩ := List.mem_map.1 hi
    cases heq : x.2 with
    | send idx => exact absurd (heq ▸ hx) (hsend x.1 idx)
    | putObject v => exact hput x.1 v (heq ▸ hx)
    | _ => trivial
  have hmethod : ∀ (s : Source) (d : MethodSource), d.body = lines →
      s.method d = .ok ⟨d.name, d.locals, m.code, #[]⟩ := by
    intro s d hbody
    rw [Source.method_of_laid hwritable (hbody ▸ hlines), code_of_decodes hdecodes]
  refine ⟨fun p => methodListing_of_decodes p hdecodes hsend, fun name => ?_, fun s id d hd hbody => ?_⟩
  · exact Source.build_single (hmethod _ ⟨name, 0, lines⟩ rfl)
  · refine ⟨fun k e herror => ?_, fun r hr => ?_⟩
    · obtain ⟨hnodup, d', hd', hname, hbad⟩ := Source.build_eq_error_body herror
      obtain rfl : d' = d := List.inj_on_of_nodup_map hnodup hd' (List.mem_of_getElem? hd) hname
      rw [hmethod s d' hbody] at hbad
      cases hbad
    · obtain ⟨m', hm', hid⟩ := Source.build_method hr hd
      rw [hmethod s d hbody] at hm'
      cases hm'
      exact hid

/-- Operands at the ends of their ranges. -/
def extremeInsns : List Insn :=
  [.getLocal 0xFFFFFFFFFFFFFFFF, .putObject (.ofInt Value.minFixnum), .putObject (.ofInt Value.maxFixnum),
    .putObject .nil, .branchIf Int64.minValue, .jump Int64.maxValue, .leave]

def extremes : Method := ⟨"extremes", 1, (extremeInsns.flatMap Insn.encode).toArray, #[]⟩

/-- Its lines with a comment before them, blanks and a comment in the first one and an empty line after it. -/
def extremeLines : List String :=
  "# ends of ranges" :: "\tgetlocal 18446744073709551615  # the last" :: " " :: (extremeInsns.map Insn.text).tail

theorem listing_assembles_extremes :
    Laid extremes.texts extremeLines ∧
      Source.build ⟨"main", none, [], [⟨"main", 0, extremeLines⟩]⟩ =
        .ok ⟨⟨#[⟨"main", 0, extremes.code, #[]⟩]⟩, 0, .nil, []⟩ ∧
      ∀ k e, Source.build ⟨"main", none, [], [⟨"main", 0, extremeLines⟩]⟩ ≠ .error (.body "main" k e) := by
  have hsweep : extremes.sweep = ⟨Sweep.located extremeInsns, none⟩ := Sweep.ofCode_encode _
  have hmem : ∀ pc i, (pc, i) ∈ extremes.sweep.insns → i ∈ extremeInsns := by
    intro pc i hi
    rw [hsweep] at hi
    rw [← Sweep.map_snd_located extremeInsns]
    exact List.mem_map_of_mem hi
  have htexts : extremes.texts = extremeInsns.map Insn.text := by
    rw [texts, hsweep, Sweep.map_snd_located]
  have hlines : Laid extremes.texts extremeLines := by
    rw [htexts]
    refine .empty ?_ (.line ?_ (.empty ?_ (.refl _)))
    · exact ⟨[], [], "# ends of ranges".toList, rfl, by decide, by decide, .inr ⟨_, rfl⟩⟩
    · exact ⟨['\t'], [' ', ' '], "# the last".toList, by decide +kernel, by decide, by decide, .inr ⟨_, rfl⟩⟩
    · exact ⟨[' '], [], [], rfl, by decide, by decide, .inl rfl⟩
  have hsend : ∀ pc idx, (pc, .send idx) ∉ extremes.sweep.insns := by
    intro pc idx hi
    have hin := hmem pc _ hi
    simp [extremeInsns] at hin
  have hput : ∀ pc v, (pc, .putObject v) ∈ extremes.sweep.insns →
      v.isFixnum = true ∨ v = .nil ∨ v = .true ∨ v = .false := by
    intro pc v hi
    have hin := hmem pc _ hi
    simp [extremeInsns] at hin
    rcases hin with rfl | rfl | rfl
    · exact .inl (Value.isFixnum_ofInt _)
    · exact .inl (Value.isFixnum_ofInt _)
    · exact .inr (.inl rfl)
  obtain ⟨_, hsingle, hamong⟩ := listing_assembles (congrArg Sweep.error hsweep) hsend hput hlines
  exact ⟨hlines, hsingle "main", (hamong _ 0 ⟨"main", 0, extremeLines⟩ rfl rfl).1⟩

end Method

end StackMachine
