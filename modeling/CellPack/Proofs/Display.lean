import Mathlib
import CellPack.Cell.Basic
import CellPack.Proofs.Bits
/-!
# The text of a tree of cells

The digits of a bit string give its bits back, and the mark of an incomplete digit says how many of
them there are. A line gives its depth and its bits back, and the lines below a cell end where a
line of its own depth or a smaller one follows. So trees with the same text are the same
(`Cell.text_eq_iff`).
-/

namespace CellPack

/-- Where a run of one thing ends shows how long it is. -/
theorem replicate_append_inj {α : Type} {a b : α} (hab : a ≠ b) {m n : Nat} {xs ys : List α}
    (h : List.replicate m a ++ b :: xs = List.replicate n a ++ b :: ys) : m = n ∧ xs = ys := by
  induction m generalizing n with
  | zero =>
    cases n with
    | zero => exact ⟨rfl, (List.cons.inj h).2⟩
    | succ n => exact absurd (List.cons.inj h).1.symm hab
  | succ m ih =>
    cases n with
    | zero => exact absurd (List.cons.inj h).1 hab
    | succ n =>
      obtain ⟨rfl, hrest⟩ := ih (List.cons.inj h).2
      exact ⟨rfl, hrest⟩

/-! ## Digits -/

namespace Bits

theorem hexDigit?_digit : ∀ a b c d : Bool,
    Numeral.hexDigit? (Nat.digitChar (toNat [a, b, c, d])).toUpper = some (toNat [a, b, c, d]) := by
  decide

/-- The bits of digits, four of each. -/
def ofHexDigits (digits : List Char) : List Bool :=
  digits.flatMap fun c => ofNat 4 ((Numeral.hexDigit? c).getD 0)

theorem ofHexDigits_hexDigits {bits : List Bool} (h : bits.length % 4 = 0) :
    ofHexDigits (hexDigits bits) = bits := by
  fun_induction hexDigits bits with
  | case1 a b c d rest ih =>
    have hrest : rest.length % 4 = 0 := by
      simp only [List.length_cons] at h
      omega
    have hdigit : ofNat 4 (toNat [a, b, c, d]) = [a, b, c, d] := ofNat_toNat [a, b, c, d]
    rw [ofHexDigits, List.flatMap_cons, ← ofHexDigits, ih hrest, hexDigit?_digit,
      Option.getD_some, hdigit]
    rfl
  | case2 bits hshort =>
    match bits, h, hshort with
    | [], _, _ => rfl
    | a :: b :: c :: d :: rest, _, hshort => exact absurd rfl (hshort a b c d rest)

theorem hexDigits_inj {xs ys : List Bool} (hx : xs.length % 4 = 0) (hy : ys.length % 4 = 0)
    (h : hexDigits xs = hexDigits ys) : xs = ys := by
  rw [← ofHexDigits_hexDigits hx, h, ofHexDigits_hexDigits hy]

theorem isSome_hexDigit? {bits : List Bool} {c : Char} (h : c ∈ hexDigits bits) :
    (Numeral.hexDigit? c).isSome := by
  fun_induction hexDigits bits with
  | case1 a b c d rest ih =>
    rcases List.mem_cons.1 h with rfl | h
    · rw [hexDigit?_digit]
      rfl
    · exact ih h
  | case2 => cases h

theorem underscore_not_mem (bits : List Bool) : '_' ∉ hexDigits bits :=
  fun h => absurd (isSome_hexDigit? h) (by decide)

/-- The bits up to a whole number of digits. -/
def marked (bits : List Bool) : List Bool :=
  bits ++ true :: List.replicate (3 - bits.length % 4) false

theorem length_marked (bits : List Bool) : (marked bits).length % 4 = 0 := by
  rw [marked, List.length_append, List.length_cons, List.length_replicate]
  omega

/-- The last set bit is the mark. -/
theorem marked_inj {xs ys : List Bool} (h : marked xs = marked ys) : xs = ys := by
  have hreverse := congrArg List.reverse h
  simp only [marked, List.reverse_append, List.reverse_cons, List.reverse_replicate,
    List.append_assoc, List.singleton_append] at hreverse
  exact List.reverse_injective (replicate_append_inj (by decide) hreverse).2

theorem hexText_inj {xs ys : List Bool} (h : hexText xs = hexText ys) : xs = ys := by
  have hlast (xs ys : List Bool) : hexDigits xs ≠ hexDigits ys ++ ['_'] :=
    fun h => underscore_not_mem xs (h ▸ List.mem_append_right _ (List.mem_singleton_self _))
  unfold hexText at h
  split at h <;> split at h
  · next hx hy => exact hexDigits_inj hx hy h
  · exact absurd h (hlast _ _)
  · exact absurd h.symm (hlast _ _)
  · have hmarked := List.append_cancel_right h
    exact marked_inj (hexDigits_inj (length_marked xs) (length_marked ys) hmarked)

theorem newline_not_mem_hexText (bits : List Bool) : '\n' ∉ hexText bits := by
  have hdigits (bits : List Bool) : '\n' ∉ hexDigits bits :=
    fun h => absurd (isSome_hexDigit? h) (by decide)
  unfold hexText
  split
  · exact hdigits bits
  · rw [List.mem_append, not_or]
    exact ⟨hdigits _, by decide⟩

end Bits

/-! ## Lines -/

namespace Cell

/-- The line of a cell. -/
def line (depth : Nat) (bits : List Bool) : List Char :=
  List.replicate depth ' ' ++ ['x', '\x7b'] ++ Bits.hexText bits ++ ['\x7d']

theorem line_inj {d d' : Nat} {bits bits' : List Bool} (h : line d bits = line d' bits') :
    d = d' ∧ bits = bits' := by
  simp only [line, List.append_assoc, List.cons_append] at h
  obtain ⟨rfl, hrest⟩ := replicate_append_inj (by decide) h
  exact ⟨rfl, Bits.hexText_inj (List.append_cancel_right (List.cons.inj hrest).2)⟩

theorem newline_not_mem_line (depth : Nat) (bits : List Bool) : '\n' ∉ line depth bits := by
  have := Bits.newline_not_mem_hexText bits
  simp [line, this]

/-- What follows the lines below a cell starts with a line of smaller depth. -/
def Outside (depth : Nat) (rest : List (List Char)) : Prop :=
  ∀ l ∈ rest.head?, ∃ d < depth, ∃ bits, l = line d bits

theorem linesOf_cons (depth : Nat) (bits : List Bool) (refs cs : List Cell)
    (rest : List (List Char)) :
    linesOf depth (mk bits refs :: cs) ++ rest =
      line depth bits :: (linesOf (depth + 1) refs ++ (linesOf depth cs ++ rest)) := by
  rw [linesOf, lines, List.append_assoc]
  rfl

theorem not_outside_linesOf (depth : Nat) (c : Cell) (cs : List Cell) (rest : List (List Char)) :
    ¬Outside depth (linesOf depth (c :: cs) ++ rest) := by
  intro h
  obtain ⟨bits, refs⟩ := c
  rw [linesOf_cons] at h
  obtain ⟨d, hd, bits', hline⟩ := h _ rfl
  exact absurd (line_inj hline).1 (Nat.ne_of_gt hd)

/-- The lines of the cells beside a cell lie outside of it, as what follows them does. -/
theorem outside_linesOf {depth : Nat} (cs : List Cell) {rest : List (List Char)}
    (h : Outside depth rest) : Outside (depth + 1) (linesOf depth cs ++ rest) := by
  cases cs with
  | nil =>
    intro l hl
    obtain ⟨d, hd, bits, rfl⟩ := h l hl
    exact ⟨d, by omega, bits, rfl⟩
  | cons c cs =>
    obtain ⟨bits, refs⟩ := c
    rintro _ ⟨⟩
    exact ⟨depth, Nat.lt_succ_self depth, bits, rfl⟩

/-- Trees at one depth, and what follows them outside, are told by their lines. -/
theorem linesOf_inj {depth : Nat} : ∀ {cs cs' : List Cell} {rest rest' : List (List Char)},
    Outside depth rest → Outside depth rest' →
      linesOf depth cs ++ rest = linesOf depth cs' ++ rest' → cs = cs' ∧ rest = rest'
  | [], [], _, _, _, _, h => ⟨rfl, h⟩
  | [], c :: cs, rest, rest', hrest, _, h => by
    have hstarts : rest = linesOf depth (c :: cs) ++ rest' := h
    exact absurd (hstarts ▸ hrest) (not_outside_linesOf depth c cs rest')
  | c :: cs, [], rest, rest', _, hrest', h => by
    have hstarts : linesOf depth (c :: cs) ++ rest = rest' := h
    exact absurd (hstarts ▸ hrest') (not_outside_linesOf depth c cs rest)
  | mk bits refs :: cs, mk bits' refs' :: cs', rest, rest', hrest, hrest', h => by
    rw [linesOf_cons, linesOf_cons] at h
    obtain ⟨hline, htail⟩ := List.cons.inj h
    obtain ⟨-, rfl⟩ := line_inj hline
    -- the cells below come first, and the cells beside lie outside of them
    obtain ⟨rfl, hbeside⟩ :=
      linesOf_inj (outside_linesOf cs hrest) (outside_linesOf cs' hrest') htail
    obtain ⟨rfl, rfl⟩ := linesOf_inj hrest hrest' hbeside
    exact ⟨rfl, rfl⟩

theorem lines_inj {depth : Nat} {c c' : Cell} (h : lines depth c = lines depth c') : c = c' := by
  have hnone : Outside depth [] := fun l hl => by cases hl
  have hlists : linesOf depth [c] ++ [] = linesOf depth [c'] ++ [] := by
    simp only [linesOf, h]
  exact List.singleton_inj.1 (linesOf_inj hnone hnone hlists).1

mutual
theorem newline_not_mem_lines (depth : Nat) : ∀ c : Cell, ∀ l ∈ lines depth c, '\n' ∉ l
  | mk bits refs => by
    rw [lines]
    exact List.forall_mem_cons.2
      ⟨newline_not_mem_line depth bits, newline_not_mem_linesOf (depth + 1) refs⟩
theorem newline_not_mem_linesOf (depth : Nat) : ∀ cs : List Cell, ∀ l ∈ linesOf depth cs, '\n' ∉ l
  | [] => by simp [linesOf]
  | c :: cs => by
    rw [linesOf]
    exact List.forall_mem_append.2
      ⟨newline_not_mem_lines depth c, newline_not_mem_linesOf depth cs⟩
end

theorem splitOn_text (c : Cell) : c.text.toList.splitOn '\n' = lines 0 c := by
  have hlines : (lines 0 c).map (String.toList ∘ String.ofList) = lines 0 c := by
    simp [Function.comp_def]
  have hne : lines 0 c ≠ [] := by
    obtain ⟨bits, refs⟩ := c
    simp [lines]
  rw [text, String.toList_intercalate, List.map_map, hlines]
  exact List.splitOn_intercalate '\n' (newline_not_mem_lines 0 c) hne

/-- The text of a tree tells all bits and references in it. -/
theorem text_eq_iff (c c' : Cell) : c.text = c'.text ↔ c = c' := by
  constructor
  · intro h
    apply lines_inj
    rw [← splitOn_text c, h, splitOn_text c']
  · rintro rfl
    rfl

end Cell
end CellPack
