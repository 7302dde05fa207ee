import Mathlib
import StackMachine.Program.Mnemonic

/-!
# The layout of lines

Blanks around the words of a line, and comments after them, do not change what the words are.

* `Text.words_append_blank`: words on the two sides of a blank are cut apart; the other facts about `words` come from
  this one.
* `Mnemonic.Dressed`: a line that is a text with blanks around it and perhaps a comment.
* `Mnemonic.Laid`: lines that are the given texts, each dressed, with empty lines anywhere between them.
-/

namespace StackMachine

namespace Text

def Blanks (cs : List Char) : Prop := ∀ c ∈ cs, isBlank c = true

/-- What can stand alone in a line: no blank cuts it apart, and no comment starts in it. -/
def IsWord (w : List Char) : Prop := w ≠ [] ∧ ∀ c ∈ w, isBlank c = false ∧ c ≠ '#'

-- By these instances the characters of the list are tried, not all that there are.
instance : DecidablePred Blanks := fun cs => List.decidableBAll _ cs

instance : DecidablePred IsWord := fun w => @instDecidableAnd _ _ _ (List.decidableBAll _ w)

theorem words_append_blank (xs ys : List Char) {c : Char} (hc : isBlank c = true) :
    words (xs ++ c :: ys) = words xs ++ words ys := by
  rw [words, List.splitOnP_append_cons _ _ hc, List.filter_append]
  rfl

theorem words_blanks_append {bs : List Char} (hbs : Blanks bs) (cs : List Char) : words (bs ++ cs) = words cs := by
  induction bs with
  | nil => rfl
  | cons b bs ih =>
    obtain ⟨hb, hrest⟩ := List.forall_mem_cons.1 hbs
    exact (words_append_blank [] (bs ++ cs) hb).trans (ih hrest)

theorem words_append_blanks (cs : List Char) {bs : List Char} (hbs : Blanks bs) : words (cs ++ bs) = words cs := by
  cases bs with
  | nil => rw [List.append_nil]
  | cons b bs =>
    obtain ⟨hb, hrest⟩ := List.forall_mem_cons.1 hbs
    have hnone : words bs = [] := by
      rw [← List.append_nil bs, words_blanks_append hrest]
      rfl
    rw [words_append_blank cs bs hb, hnone, List.append_nil]

theorem IsWord.words_eq {w : List Char} (hw : IsWord w) : words w = [w] := by
  rw [words, List.splitOnP_eq_singleton fun c hc => (hw.2 c hc).1]
  simp [hw.1]

end Text

namespace Mnemonic

open Text (Blanks IsWord)

variable {text line name word : String}

/-- The line is the text with blanks around it, and perhaps a comment at the end. -/
def Dressed (text line : String) : Prop :=
  ∃ before after comment, line.toList = before ++ text.toList ++ after ++ comment ∧ Blanks before ∧ Blanks after ∧
    (comment = [] ∨ ∃ rest, comment = '#' :: rest)

/-- The lines are the texts, each one dressed, and between them lines with nothing but blanks and comments. -/
inductive Laid : List String → List String → Prop where
  | nil : Laid [] []
  | empty {line texts lines} (h : Dressed "" line) (rest : Laid texts lines) : Laid texts (line :: lines)
  | line {text line texts lines} (h : Dressed text line) (rest : Laid texts lines) :
      Laid (text :: texts) (line :: lines)

theorem Dressed.refl (text : String) : Dressed text text := by
  refine ⟨[], [], [], ?_, List.forall_mem_nil _, List.forall_mem_nil _, .inl rfl⟩
  rw [List.nil_append, List.append_nil, List.append_nil]

theorem Laid.refl (texts : List String) : Laid texts texts := by
  induction texts with
  | nil => exact .nil
  | cons text texts ih => exact .line (.refl text) ih

/-- Neither the blanks nor the comment count. -/
theorem Dressed.lineWords_eq (h : Dressed text line) (htext : ∀ c ∈ text.toList, c ≠ '#') :
    lineWords line = (Text.words text.toList).map String.ofList := by
  obtain ⟨before, after, comment, hline, hbefore, hafter, hcomment⟩ := h
  have hsign : Text.isBlank '#' = false := by decide
  have hfront : ∀ c ∈ before ++ text.toList ++ after, decide (c ≠ '#') = true := by
    intro c hc
    rw [decide_eq_true_iff]
    rw [List.mem_append, List.mem_append] at hc
    rcases hc with (hc | hc) | hc
    · rintro rfl
      rw [hbefore _ hc] at hsign
      cases hsign
    · exact htext c hc
    · rintro rfl
      rw [hafter _ hc] at hsign
      cases hsign
  have hnone : comment.takeWhile (· ≠ '#') = [] := by
    rcases hcomment with rfl | ⟨rest, rfl⟩
    · rfl
    · exact List.takeWhile_cons_of_neg (by decide)
  rw [lineWords, hline, List.takeWhile_append_of_pos hfront, hnone, List.append_nil,
    Text.words_append_blanks _ hafter, Text.words_blanks_append hbefore]

theorem Dressed.lineWords_empty (h : Dressed "" line) : lineWords line = [] := h.lineWords_eq (List.forall_mem_nil _)

theorem Dressed.lineWords_word (hname : IsWord name.toList) (h : Dressed name line) : lineWords line = [name] := by
  rw [h.lineWords_eq fun c hc => (hname.2 c hc).2, hname.words_eq, List.map_singleton, String.ofList_toList]

theorem Dressed.lineWords_pair {front : String} (hfront : front.toList = name.toList ++ [' '])
    (hname : IsWord name.toList) (hword : IsWord word.toList) (h : Dressed (front ++ word) line) :
    lineWords line = [name, word] := by
  have hlist : (front ++ word).toList = name.toList ++ ' ' :: word.toList := by
    rw [String.toList_append, hfront, List.append_assoc]
    rfl
  have hplain : ∀ c ∈ (front ++ word).toList, c ≠ '#' := by
    intro c hc
    rw [hlist, List.mem_append, List.mem_cons] at hc
    rcases hc with hc | rfl | hc
    · exact (hname.2 c hc).2
    · decide
    · exact (hword.2 c hc).2
  rw [h.lineWords_eq hplain, hlist, Text.words_append_blank _ _ (by decide), hname.words_eq, hword.words_eq]
  simp

end Mnemonic

end StackMachine
