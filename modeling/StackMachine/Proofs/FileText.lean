import Mathlib
import StackMachine.Program.Source

/-!
# The text of a program file

A program file can be written for every name and all lines of a body: `Source.fileText` is the text of a file that
defines a single method, and `Source.parse_fileText` says that it is read as just that.

* `Scan.value_quoted`: strings, whatever their characters.
* `Scan.array_quotedLines`: an array of strings.
* `Scan.statement_pair`, `Scan.statement_element`: the lines of a document.
-/

namespace StackMachine

namespace Toml

/-! ### Writing -/

/-- A character of a string; those that cannot stand in a string as they are, are below 128. -/
def quotedChar (c : Char) : List Char :=
  if Scan.isBasicChar c then [c]
  else ['\\', 'u', '0', '0', Nat.digitChar (c.toNat / 16), Nat.digitChar (c.toNat % 16)]

def quoted (s : String) : List Char := '"' :: (s.toList.flatMap quotedChar ++ ['"'])

/-- Strings one below the other, as the elements of an array. -/
def quotedLines (lines : List String) : List Char := lines.flatMap fun line => quoted line ++ [',', '\n']

end Toml

open Toml (quoted quotedLines) in
/-- A file that defines a single method and enters it. -/
def Source.fileText (name : String) (body : List String) : String :=
  String.ofList <|
    "entry".toList ++ '=' :: (quoted name ++ '\n' ::
    '[' :: '[' :: ("methods".toList ++ ']' :: ']' :: '\n' ::
    ("name".toList ++ '=' :: (quoted name ++ '\n' ::
    ("body".toList ++ '=' :: '[' :: '\n' :: (quotedLines body ++ ']' :: ['\n']))))))

namespace Toml

namespace Scan

/-! ### Strings -/

theorem toNat_lt_of_not_isBasicChar {c : Char} (h : isBasicChar c = false) : c.toNat < 128 := by
  by_contra hlt
  have hquote : c ≠ '"' := by
    rintro rfl
    exact hlt (by decide)
  have hslash : c ≠ '\\' := by
    rintro rfl
    exact hlt (by decide)
  have hcontrol : isControl c = false := by
    simp [isControl]
    omega
  simp [isBasicChar, hquote, hslash, hcontrol] at h

theorem unicode_two (n : Nat) (hn : n < 128) :
    unicode ['0', '0', Nat.digitChar (n / 16), Nat.digitChar (n % 16)] = some (Char.ofNat n) := by
  -- there are few of them, so each is tried
  revert n
  decide

theorem basicBody_basicChar {c : Char} (h : isBasicChar c = true) (cs : List Char) :
    basicBody (c :: cs) = consChar (some c) (basicBody cs) := by
  have hquote : c ≠ '"' := by
    rintro rfl
    cases h
  have hslash : c ≠ '\\' := by
    rintro rfl
    cases h
  rw [basicBody.eq_5 _ _ hquote (fun _ _ _ _ _ hc => absurd hc hslash) (fun _ _ _ _ _ _ _ _ _ hc => absurd hc hslash)
    (fun _ _ hc => absurd hc hslash), if_pos h]

theorem basicBody_quotedChar (c : Char) (cs : List Char) :
    basicBody (quotedChar c ++ cs) = consChar (some c) (basicBody cs) := by
  unfold quotedChar
  split
  · rename_i hbasic
    exact basicBody_basicChar hbasic cs
  · rename_i hbasic
    have hlt := toNat_lt_of_not_isBasicChar (Bool.not_eq_true _ ▸ hbasic)
    have hread := unicode_two c.toNat hlt
    rw [Char.ofNat_toNat] at hread
    simp only [List.cons_append, List.nil_append, basicBody, hread]

theorem basicBody_quoted (s cs : List Char) : basicBody (s.flatMap quotedChar ++ '"' :: cs) = some (s, cs) := by
  induction s with
  | nil => rfl
  | cons c s ih =>
    rw [List.flatMap_cons, List.append_assoc, basicBody_quotedChar, ih]
    rfl

theorem quotedChar_head (c : Char) : ∃ d ds, quotedChar c = d :: ds ∧ d ≠ '"' := by
  unfold quotedChar
  split
  · rename_i hbasic
    refine ⟨c, [], rfl, ?_⟩
    rintro rfl
    cases hbasic
  · exact ⟨_, _, rfl, by decide⟩

/-- The quotes of a string are not the first of the three quotes that open a longer one. -/
theorem quoted_ne_long (s : String) {c : Char} (hc : c ≠ '"') (cs rest : List Char) :
    quoted s ++ c :: cs ≠ '"' :: '"' :: '"' :: rest := by
  intro heq
  unfold quoted at heq
  cases hs : s.toList with
  | nil =>
    rw [hs] at heq
    exact hc (List.cons.inj (List.cons.inj (List.cons.inj heq).2).2).1
  | cons d ds =>
    obtain ⟨e, es, he, hne⟩ := quotedChar_head d
    rw [hs, List.flatMap_cons, he] at heq
    exact hne (List.cons.inj (List.cons.inj heq).2).1

theorem string_quoted (s : String) {c : Char} (hc : c ≠ '"') (cs : List Char) :
    string (quoted s ++ c :: cs) = some (s, c :: cs) := by
  have hbody := basicBody_quoted s.toList (c :: cs)
  unfold string
  split
  · rename_i rest heq
    exact absurd heq (quoted_ne_long s hc cs rest)
  · rename_i rest heq
    cases heq
  · simp only [quoted, List.cons_append, List.append_assoc, List.nil_append, shortString, hbody, Option.map_some,
      String.ofList_toList]

theorem value_quoted (depth : Nat) (s : String) {c : Char} (hc : c ≠ '"') (cs : List Char) :
    value depth (quoted s ++ c :: cs) = some (.string s, c :: cs) := by
  unfold value
  split <;> rename_i heq
  · cases heq
  · cases heq
  · cases heq
  · cases heq
  · rw [string_quoted s hc cs]
    rfl

/-! ### Arrays -/

theorem fixedDigits_of_not_isDigit {c : Char} (hc : c.isDigit = false) (n low high : Nat) (cs : List Char) :
    fixedDigits (n + 1) low high (c :: cs) = none := by
  simp [fixedDigits, hc]

/-- No value starts where an array ends. -/
theorem value_close (depth : Nat) (cs : List Char) : value depth (']' :: cs) = none := by
  have hdate : date (']' :: cs) = none := by
    rw [date, fixedDigits_of_not_isDigit (by decide)]
    rfl
  have htime : time (']' :: cs) = none := by
    rw [time, fixedDigits_of_not_isDigit (by decide)]
    rfl
  have hnumber : number (']' :: cs) = none := by
    simp only [number, datetime, hdate, htime]
    rfl
  unfold value
  split <;> rename_i heq
  · cases heq
  · cases heq
  · cases heq
  · cases heq
  · rw [hnumber]
    rfl

theorem many_of_eq_some {α : Type} {p : Scanner α} {a : α} {t rest : List Char} (h : p t = some (a, rest))
    (hlt : rest.length < t.length) : many p t = (a :: (many p rest).1, (many p rest).2) := by
  rw [many]
  simp only [h, if_pos hlt]

theorem many_of_eq_none {α : Type} {p : Scanner α} {t : List Char} (h : p t = none) : many p t = ([], t) := by
  rw [many]
  simp only [h]

theorem quotedLines_cons (line : String) (lines : List String) (cs : List Char) :
    quotedLines (line :: lines) ++ cs = quoted line ++ ',' :: '\n' :: (quotedLines lines ++ cs) := by
  simp [quotedLines]

section Items

variable {p : Scanner Toml}
  (hitem : ∀ line cs, p ('\n' :: (quoted line ++ ',' :: cs)) = some (.string line, ',' :: cs))
  (hclose : ∀ cs, p ('\n' :: ']' :: cs) = none)

include hitem hclose

theorem many_quotedLines (lines : List String) (cs : List Char) :
    many (fun cs => (char ',' cs).bind p) (',' :: '\n' :: (quotedLines lines ++ ']' :: cs)) =
      (lines.map .string, ',' :: '\n' :: ']' :: cs) := by
  induction lines with
  | nil => exact many_of_eq_none (hclose cs)
  | cons line lines ih =>
    have hnext := many_of_eq_some (p := fun cs => (char ',' cs).bind p) (a := .string line)
      (t := ',' :: '\n' :: (quoted line ++ ',' :: '\n' :: (quotedLines lines ++ ']' :: cs))) (hitem line _)
      (by simp only [List.length_cons, List.length_append]; omega)
    rw [quotedLines_cons, hnext, ih]
    rfl

theorem commaSeparated_quotedLines (line : String) (lines : List String) (cs : List Char) :
    commaSeparated p ('\n' :: (quotedLines (line :: lines) ++ ']' :: cs)) =
      ((line :: lines).map .string, ',' :: '\n' :: ']' :: cs) := by
  simp only [quotedLines_cons, commaSeparated, hitem, many_quotedLines hitem hclose]
  rfl

end Items

/-- A value of an array, with the blanks around it. -/
def spaced (depth : Nat) (cs : List Char) : Option (Toml × List Char) :=
  (value depth (skipBlank false cs)).map fun x => (x.1, skipBlank false x.2)

theorem array_eq (depth : Nat) (cs : List Char) {items : List Toml} {rest : List Char}
    (h : commaSeparated (spaced depth) cs = (items, rest)) :
    array (value depth) cs =
      (char ']' (skipBlank false (if items.isEmpty then rest else (char ',' rest).getD rest))).bind fun rest =>
        some (.array false items, rest) := by
  have hsplit : array (value depth) cs =
      (char ']' (skipBlank false (if (commaSeparated (spaced depth) cs).1.isEmpty then
        (commaSeparated (spaced depth) cs).2
        else (char ',' (commaSeparated (spaced depth) cs).2).getD (commaSeparated (spaced depth) cs).2))).bind
        fun rest => some (.array false (commaSeparated (spaced depth) cs).1, rest) := rfl
  rw [hsplit, h]

theorem spaced_quoted (depth : Nat) (line : String) (cs : List Char) :
    spaced depth ('\n' :: (quoted line ++ ',' :: cs)) = some (.string line, ',' :: cs) := by
  have hread : value depth (skipBlank false ('\n' :: (quoted line ++ ',' :: cs))) = some (.string line, ',' :: cs) :=
    value_quoted depth line (by decide) cs
  rw [spaced, hread]
  rfl

theorem spaced_close (depth : Nat) (cs : List Char) : spaced depth ('\n' :: ']' :: cs) = none := by
  have hread : value depth (skipBlank false ('\n' :: ']' :: cs)) = none := value_close depth cs
  rw [spaced, hread]
  rfl

/-- An array of strings, one in each line. -/
theorem array_quotedLines (depth : Nat) (lines : List String) (cs : List Char) :
    array (value depth) ('\n' :: (quotedLines lines ++ ']' :: cs)) = some (.array false (lines.map .string), cs) := by
  cases lines with
  | nil =>
    have hnone : commaSeparated (spaced depth) ('\n' :: ']' :: cs) = ([], '\n' :: ']' :: cs) := by
      simp only [commaSeparated, spaced_close]
    exact array_eq depth _ hnone
  | cons line lines =>
    exact array_eq depth _ (commaSeparated_quotedLines (spaced_quoted depth) (spaced_close depth) line lines cs)

/-! ### Lines of a document -/

/-- Keys that need no quotes. -/
def IsBareKey (k : String) : Prop := k.toList ≠ [] ∧ k.toList.all isBareKeyChar = true

instance : DecidablePred IsBareKey := fun _ => instDecidableAnd

theorem ne_of_isBareKeyChar {c d : Char} (hc : isBareKeyChar c = true) (hd : isBareKeyChar d = false) : c ≠ d := by
  rintro rfl
  rw [hc] at hd
  cases hd

theorem skipWs_of_not_isWs {c : Char} (hc : isWs c = false) (cs : List Char) : skipWs (c :: cs) = c :: cs :=
  List.dropWhile_cons_of_neg (by rw [hc]; decide)

theorem isWs_of_isBareKeyChar {c : Char} (hc : isBareKeyChar c = true) : isWs c = false := by
  have hspace := ne_of_isBareKeyChar hc (d := ' ') (by decide)
  have htab := ne_of_isBareKeyChar hc (d := '\t') (by decide)
  simp [isWs, hspace, htab]

variable {k : String} {c : Char} {cs : List Char}

theorem IsBareKey.cons (hk : IsBareKey k) : ∃ d ds, k.toList = d :: ds ∧ isBareKeyChar d = true := by
  obtain ⟨d, ds, hd⟩ := List.exists_cons_of_ne_nil hk.1
  exact ⟨d, ds, hd, List.all_eq_true.1 hk.2 d (hd ▸ List.mem_cons_self)⟩

/-- A text that starts with the key starts with no other kind of character. -/
theorem IsBareKey.append_ne (hk : IsBareKey k) (hc : isBareKeyChar c = false) (cs rest : List Char) :
    k.toList ++ cs ≠ c :: rest := by
  obtain ⟨d, ds, hd, hbare⟩ := hk.cons
  rw [hd]
  intro heq
  exact ne_of_isBareKeyChar hbare hc (List.cons.inj heq).1

theorem IsBareKey.skipWs_append (hk : IsBareKey k) (cs : List Char) : skipWs (k.toList ++ cs) = k.toList ++ cs := by
  obtain ⟨d, ds, hd, hbare⟩ := hk.cons
  rw [hd]
  exact skipWs_of_not_isWs (isWs_of_isBareKeyChar hbare) _

theorem keyPart_bare (hk : IsBareKey k) (hc : isBareKeyChar c = false) (hws : isWs c = false) :
    keyPart (k.toList ++ c :: cs) = some (k, c :: cs) := by
  have hall : ∀ a ∈ k.toList, isBareKeyChar a = true := List.all_eq_true.1 hk.2
  have htake : (k.toList ++ c :: cs).takeWhile isBareKeyChar = k.toList := by
    rw [List.takeWhile_append_of_pos hall, List.takeWhile_cons_of_neg (by rw [hc]; decide), List.append_nil]
  have hdrop : (k.toList ++ c :: cs).dropWhile isBareKeyChar = c :: cs := by
    rw [List.dropWhile_append_of_pos hall, List.dropWhile_cons_of_neg (by rw [hc]; decide)]
  have hstring : shortString (k.toList ++ c :: cs) = none :=
    shortString.eq_3 _ (hk.append_ne (by decide) _) (hk.append_ne (by decide) _)
  have hkey : bareKey (k.toList ++ c :: cs) = some (k, c :: cs) := by
    unfold bareKey
    rw [htake, hdrop]
    split
    · rename_i hnil
      exact absurd hnil hk.1
    · rw [String.ofList_toList]
  simp only [keyPart, hk.skipWs_append, hstring, hkey, Option.none_or, Option.map_some, skipWs_of_not_isWs hws]

/-- A key of one part is followed by what is no point. -/
theorem key_bare (hk : IsBareKey k) (hc : isBareKeyChar c = false) (hws : isWs c = false) (hpoint : c ≠ '.') :
    key (k.toList ++ c :: cs) = some (([], k), c :: cs) := by
  have hend : (char '.' (c :: cs)).bind keyPart = none := by
    rw [char, if_neg hpoint.symm]
    rfl
  simp only [key, keyPart_bare hk hc hws, many_of_eq_none (p := fun cs => (char '.' cs).bind keyPart) hend]
  rfl

theorem lineEnd_bare (hk : IsBareKey k) : lineEnd (k.toList ++ cs) = none := by
  have hcomment : skipComment (k.toList ++ cs) = k.toList ++ cs := skipComment.eq_2 _ (hk.append_ne (by decide) _)
  have hnewline : newline (k.toList ++ cs) = none :=
    newline.eq_3 _ (hk.append_ne (by decide) _) fun rest => hk.append_ne (by decide) _ ('\n' :: rest)
  unfold lineEnd
  rw [hk.skipWs_append, hcomment]
  split
  · rename_i hnil
    exact absurd (List.append_eq_nil_iff.1 hnil).1 hk.1
  · exact hnewline

theorem pair_bare (hk : IsBareKey k) {item : Scanner Toml} {vs rest : List Char} {v : Toml} (hws : skipWs vs = vs)
    (hv : item vs = some (v, rest)) : pair item (k.toList ++ '=' :: vs) = some ((([], k), v), rest) := by
  have hkey : key (k.toList ++ '=' :: vs) = some (([], k), '=' :: vs) :=
    key_bare hk (by decide) (by decide) (by decide)
  simp [pair, hkey, char, hws, hv]

theorem statement_pair (hk : IsBareKey k) {vs rest : List Char} {v : Toml} (hws : skipWs vs = vs)
    (hv : value 79 vs = some (v, '\n' :: rest)) :
    statement (k.toList ++ '=' :: vs) = some (some (.pair [] k v), rest) := by
  have hpair : pair (value (nestingLimit - 1)) (k.toList ++ '=' :: vs) = some ((([], k), v), '\n' :: rest) :=
    pair_bare hk hws hv
  unfold statement
  rw [hk.skipWs_append]
  split
  · rename_i heq
    exact absurd heq (hk.append_ne (by decide) _ _)
  · rename_i heq
    exact absurd heq (hk.append_ne (by decide) _ _)
  · rw [lineEnd_bare hk, hpair]
    rfl

theorem statement_string (hk : IsBareKey k) (s : String) (rest : List Char) :
    statement (k.toList ++ '=' :: (quoted s ++ '\n' :: rest)) = some (some (.pair [] k (.string s)), rest) := by
  refine statement_pair hk ?_ (value_quoted 79 s (by decide) rest)
  exact skipWs_of_not_isWs (by decide) _

theorem statement_lines (hk : IsBareKey k) (lines : List String) (rest : List Char) :
    statement (k.toList ++ '=' :: '[' :: '\n' :: (quotedLines lines ++ ']' :: '\n' :: rest)) =
      some (some (.pair [] k (.array false (lines.map .string))), rest) := by
  refine statement_pair hk ?_ (array_quotedLines 78 lines ('\n' :: rest))
  exact skipWs_of_not_isWs (by decide) _

theorem statement_element (hk : IsBareKey k) (rest : List Char) :
    statement ('[' :: '[' :: (k.toList ++ ']' :: ']' :: '\n' :: rest)) = some (some (.element [] k), rest) := by
  have hheader : elementHeader (k.toList ++ ']' :: ']' :: '\n' :: rest) = some (.element [] k, rest) := by
    rw [elementHeader, key_bare hk (c := ']') (by decide) (by decide) (by decide)]
    rfl
  rw [statement, skipWs_of_not_isWs (by decide)]
  simp only [hheader]
  rfl

end Scan

/-! ### The whole file -/

/-- The text is read as these statements, whatever the number of its first line. -/
def Reads (cs : List Char) (ss : List Statement) : Prop := ∀ line, statements line cs = .ok ss

theorem Reads.cons {cs rest : List Char} {s : Statement} {ss : List Statement}
    (h : Scan.statement cs = some (some s, rest)) (hlt : rest.length < cs.length) (hrest : Reads rest ss) :
    Reads cs (s :: ss) := by
  intro line
  cases cs with
  | nil => cases hlt
  | cons c cs =>
    rw [statements]
    · simp only [h, if_pos hlt, hrest _]
      rfl
    · exact List.cons_ne_nil c cs

end Toml

namespace Source

open Toml.Scan (statement_string statement_element statement_lines)

theorem reads_fileText (name : String) (body : List String) :
    Toml.Reads (fileText name body).toList
      [.pair [] "entry" (.string name), .element [] "methods", .pair [] "name" (.string name),
        .pair [] "body" (.array false (body.map .string))] := by
  unfold fileText
  rw [String.toList_ofList]
  -- each statement takes its lines off the text
  refine .cons (statement_string (k := "entry") (by decide) name _) ?_ ?_
  · simp only [List.length_append, List.length_cons]
    omega
  refine .cons (statement_element (k := "methods") (by decide) _) ?_ ?_
  · simp only [List.length_append, List.length_cons]
    omega
  refine .cons (statement_string (k := "name") (by decide) name _) ?_ ?_
  · simp only [List.length_append, List.length_cons]
    omega
  refine .cons (statement_lines (k := "body") (by decide) body _) ?_ ?_
  · simp only [List.length_append, List.length_cons]
    omega
  intro line
  rw [Toml.statements]

/-- The table that the file describes. -/
def fileFields (name : String) (body : List String) : Toml.Fields :=
  [("entry", .string name),
    ("methods", .array true [.table .header [("name", .string name), ("body", .array false (body.map .string))]])]

theorem toml_fileText (name : String) (body : List String) :
    Toml.parse (fileText name body) = .ok (fileFields name body) := by
  have hmark : Toml.dropMark (fileText name body).toList = (fileText name body).toList := by
    unfold fileText
    rw [String.toList_ofList]
    rfl
  rw [Toml.parse, hmark, reads_fileText name body 1]
  rfl

theorem ofFields?_fileFields (name : String) (body : List String) :
    ofFields? (fileFields name body) = some ⟨name, none, [], [⟨name, 0, body⟩]⟩ := by
  have hbody : (body.map Toml.string).mapM Toml.string? = some body := by
    induction body with
    | nil => rfl
    | cons line body ih => simp [Toml.string?, ih]
  have hmethod : MethodSource.ofFields? [("name", .string name), ("body", .array false (body.map .string))] =
      some ⟨name, 0, body⟩ := by
    simp [MethodSource.ofFields?, Toml.keysAmong, Toml.field?, Toml.lookup, List.lookup, Toml.listOf?, Toml.string?,
      hbody]
  simp [ofFields?, fileFields, Toml.keysAmong, Toml.field?, Toml.lookup, List.lookup, Toml.listOf?, Toml.string?,
    MethodSource.ofToml?, hmethod]

theorem parse_fileText (name : String) (body : List String) :
    parse (fileText name body) = .ok ⟨name, none, [], [⟨name, 0, body⟩]⟩ := by
  rw [parse, toml_fileText]
  simp only [ofFields?_fileFields]

end Source

end StackMachine
