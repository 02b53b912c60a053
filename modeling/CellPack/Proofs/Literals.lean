import Mathlib
import CellPack.Json.Reader
import CellPack.Procedure.Literal
import CellPack.Proofs.Addresses
import CellPack.Proofs.Contents
/-!
# Literals of constants

A quoted text is read back (`Json.string?_quoted`), and so is each part of a literal. The first
character of a literal tells the kind of the value, in code as well as in bindings, so different
values have different literals (`ConstValue.literals_faithful`). What stands in code is printable,
with no quotes but the two around a text.
-/

namespace CellPack

/-! ## Quoted texts -/

namespace Json

/-- The piece stands for the character: as itself, or as a unit if it is a control character. -/
def Piece.Is : Piece → Char → Prop
  | char d, c => d = c
  | unit n, c => n = c.toNat ∧ n < 32

/-- A control character as a unit. -/
theorem unit?_hex : ∀ n < 32, ∃ a b, (Numeral.hex 4 n).toList = ['0', '0', a, b]
    ∧ unit? '0' '0' a b = some n := by
  have hhex : ∀ n < 32, List.replicate (4 - (Nat.toDigits 16 n).length) '0' ++ Nat.toDigits 16 n =
      ['0', '0', Nat.digitChar (n / 16), Nat.digitChar (n % 16)] := by decide
  have hunit : ∀ n < 32,
      unit? '0' '0' (Nat.digitChar (n / 16)) (Nat.digitChar (n % 16)) = some n := by decide
  intro n hn
  exact ⟨_, _, by rw [Numeral.hex, String.toList_ofList]; exact hhex n hn, hunit n hn⟩

/-- A character between quotes is read as one piece. -/
theorem exists_pieces?_escaped (c : Char) : ∃ p : Piece, p.Is c
    ∧ ∀ acc rest, pieces? acc (escaped c ++ rest) = pieces? (p :: acc) rest := by
  unfold escaped
  split
  · exact ⟨.char '"', rfl, fun _ _ => rfl⟩
  · exact ⟨.char '\\', rfl, fun _ _ => rfl⟩
  · exact ⟨.char '\n', rfl, fun _ _ => rfl⟩
  · exact ⟨.char '\r', rfl, fun _ _ => rfl⟩
  · exact ⟨.char '\t', rfl, fun _ _ => rfl⟩
  · next hquote hback _ _ _ =>
    split_ifs with hb hf hcontrol
    · refine ⟨.char c, rfl, fun acc rest => ?_⟩
      rw [← Char.ofNat_toNat c, hb]
      rfl
    · refine ⟨.char c, rfl, fun acc rest => ?_⟩
      rw [← Char.ofNat_toNat c, hf]
      rfl
    · obtain ⟨a, b, hhex, hunit⟩ := unit?_hex c.toNat hcontrol
      refine ⟨.unit c.toNat, ⟨rfl, hcontrol⟩, fun acc rest => ?_⟩
      rw [hhex]
      change (unit? '0' '0' a b).bind (fun u => pieces? (.unit u :: acc) rest) = _
      rw [hunit]
      rfl
    · refine ⟨.char c, rfl, fun acc rest => ?_⟩
      rw [List.singleton_append, pieces?, if_neg (by tauto)]
      · exact hquote
      · exact fun _ _ _ _ _ h => absurd h hback
      · exact fun _ _ h => absurd h hback

/-- A unit of a control character is no surrogate. -/
theorem joinPieces?_unit {n : Nat} (hn : n < 32) (ps : List Piece) (acc : List Char) :
    joinPieces? (.unit n :: ps) acc = joinPieces? ps (Char.ofNat n :: acc) := by
  match ps with
  | .unit high :: ps => rw [joinPieces?, if_neg (by omega), if_neg (by omega)]
  | .char c :: ps => exact if_neg (by omega)
  | [] => exact if_neg (by omega)

/-- Pieces without surrogates are joined to the characters that they stand for. -/
theorem joinPieces?_of_is {ps : List Piece} {cs : List Char} (h : List.Forall₂ Piece.Is ps cs)
    (acc : List Char) : joinPieces? ps acc = some (cs.reverse ++ acc) := by
  induction h generalizing acc with
  | nil => rfl
  | @cons p c ps cs hp _ ih =>
    rw [List.reverse_cons, List.append_assoc]
    cases p with
    | char d =>
      obtain rfl : d = c := hp
      rw [joinPieces?, ih]
      rfl
    | unit n =>
      obtain ⟨rfl, hn⟩ := hp
      rw [joinPieces?_unit hn, ih, Char.ofNat_toNat]
      rfl

/-- A quoted text is read back, whatever follows it. -/
theorem string?_quoted (s : String) (rest : List Char) :
    string? (s.toList.flatMap escaped ++ '"' :: rest) = some (some s, rest) := by
  have hread : ∀ (cs : List Char) acc, ∃ ps, List.Forall₂ Piece.Is ps cs.reverse
      ∧ pieces? acc (cs.flatMap escaped ++ '"' :: rest) = some (ps ++ acc, rest) := by
    intro cs
    induction cs with
    | nil => exact fun acc => ⟨[], .nil, rfl⟩
    | cons c cs ih =>
      intro acc
      obtain ⟨p, hp, hescaped⟩ := exists_pieces?_escaped c
      obtain ⟨ps, hps, hrest⟩ := ih (p :: acc)
      refine ⟨ps ++ [p], ?_, ?_⟩
      · rw [List.reverse_cons]
        exact List.rel_append hps (.cons hp .nil)
      · rw [List.flatMap_cons, List.append_assoc, hescaped, hrest, List.append_assoc]
        rfl
  obtain ⟨ps, hps, hpieces⟩ := hread s.toList []
  rw [string?, hpieces, List.append_nil]
  change some ((joinPieces? ps []).map String.ofList, rest) = _
  rw [joinPieces?_of_is hps, List.reverse_reverse, List.append_nil, Option.map_some,
    String.ofList_toList]

theorem quoted_inj {s t : String} (h : quoted s = quoted t) : s = t := by
  have hread (s : String) : string? ((quoted s).toList.drop 1) = some (some s, []) := by
    rw [quoted, String.toList_ofList]
    exact string?_quoted s []
  have heq := (hread s).symm.trans (h ▸ hread t)
  simpa using heq

end Json

/-! ## Numbers and bytes -/

/-- Printable ASCII. -/
def IsPrintable (c : Char) : Prop := 32 ≤ c.toNat ∧ c.toNat < 127

instance (c : Char) : Decidable (IsPrintable c) := inferInstanceAs (Decidable (_ ∧ _))

theorem isPlainChar_iff {c : Char} :
    isPlainChar c = true ↔ IsPrintable c ∧ c ≠ '"' ∧ c ≠ '\\' := by
  simp [isPlainChar, IsPrintable, and_assoc]

namespace Numeral

theorem digit_cases {P : Char → Prop}
    (h : ∀ n < 58, (Char.ofNat n).isDigit = true → P (Char.ofNat n)) {c : Char}
    (hc : c.isDigit = true) : P c := by
  have hlt : c.toNat < 58 := by
    simp only [Char.isDigit, Bool.and_eq_true, decide_eq_true_eq, UInt32.le_iff_toNat_le] at hc
    exact Nat.lt_succ_of_le hc.2
  have hp := h c.toNat hlt
  rw [Char.ofNat_toNat] at hp
  exact hp hc

theorem Decimal.cases_of_mem {cs : List Char} {v : Int} (h : Decimal cs v) {c : Char}
    (hc : c ∈ cs) : c.isDigit = true ∨ c = '+' ∨ c = '-' := by
  cases h with
  | plain h => exact .inl (h.isDigit c hc)
  | plus h =>
    rcases List.mem_cons.1 hc with rfl | hc
    · exact .inr (.inl rfl)
    · exact .inl (h.isDigit c hc)
  | minus h =>
    rcases List.mem_cons.1 hc with rfl | hc
    · exact .inr (.inr rfl)
    · exact .inl (h.isDigit c hc)

theorem Decimal.ne_nil {cs : List Char} {v : Int} (h : Decimal cs v) : cs ≠ [] := by
  cases h with
  | plain h => exact h.ne_nil
  | plus | minus => exact List.cons_ne_nil _ _

theorem toString_inj {v w : Int} (h : (toString v).toList = (toString w).toList) : v = w :=
  Option.some.inj ((grouped?_toString v).symm.trans (h ▸ grouped?_toString w))

theorem length_hexBytes (bytes : List UInt8) :
    (hexBytes bytes).toList.length = 2 * bytes.length := by
  rw [hexBytes, String.toList_ofList, List.length_flatMap]
  simp [mul_comm]

theorem isPlainChar_of_mem_hexBytes {bytes : List UInt8} {c : Char}
    (hc : c ∈ (hexBytes bytes).toList) : isPlainChar c = true := by
  have hdigit : ∀ n < 16, isPlainChar (hexDigit n) = true := by decide
  rw [hexBytes, String.toList_ofList, List.mem_flatMap] at hc
  obtain ⟨b, -, hc⟩ := hc
  have hb := b.toNat_lt
  rcases List.mem_pair.1 hc with rfl | rfl
  · exact hdigit _ (by omega)
  · exact hdigit _ (by omega)

theorem hexBytes_inj {xs ys : List UInt8} (h : (hexBytes xs).toList = (hexBytes ys).toList) :
    xs = ys := by
  have hread (bytes : List UInt8) : Address.hashBytes (hexBytes bytes).toList = .ok bytes :=
    Address.hashBytes_eq_ok_iff.2 ((Address.pairs_hexBytes bytes).mono fun _ _ => .inl)
  exact Except.ok.inj ((hread xs).symm.trans (h ▸ hread ys))

end Numeral

/-! ## Texts and addresses -/

theorem toUTF8_inj {s t : String} (h : s.toUTF8.toList = t.toUTF8.toList) : s = t := by
  have hread := Cell.readText_ofText s
  rw [Cell.ofText, h, ← Cell.ofText, Cell.readText_ofText] at hread
  exact (Except.ok.inj hread).symm

/-- The characters of a text in code, but for the two quotes, need no escape. -/
theorem exists_textLiteral_eq (s : String) : ∃ body tail,
    (textLiteral s).toList = '"' :: (body ++ '"' :: tail)
      ∧ ∀ c ∈ body ++ tail, isPlainChar c = true := by
  unfold textLiteral
  split
  · next hplain =>
    refine ⟨s.toList, [], by simp, ?_⟩
    rw [List.append_nil]
    exact List.all_eq_true.1 hplain
  · refine ⟨(Numeral.hexBytes s.toUTF8.toList).toList, ['s'], by simp, ?_⟩
    refine List.forall_mem_append.2 ⟨fun c => Numeral.isPlainChar_of_mem_hexBytes, ?_⟩
    simp [isPlainChar]

/-- The last character tells the two forms of a text apart. -/
theorem textLiteral_inj {s t : String} (h : (textLiteral s).toList = (textLiteral t).toList) :
    s = t := by
  have hlast (xs ys : List Char) : xs ++ "\"".toList ≠ ys ++ "\"s".toList := fun h => by
    simpa using congrArg List.getLast? h
  unfold textLiteral at h
  split at h <;> split at h <;> simp only [String.toList_append] at h
  · exact String.toList_inj.1 (List.append_cancel_left (List.append_cancel_right h))
  · exact absurd h (hlast _ _)
  · exact absurd h.symm (hlast _ _)
  · exact toUTF8_inj (Numeral.hexBytes_inj (List.append_cancel_left (List.append_cancel_right h)))

/-- An address is known by its parts, with anything fixed between and behind them. -/
theorem Address.eq_of_parts {a b : Address} {sep post : List Char}
    (h : (toString a.workchain).toList ++ (sep ++ ((Numeral.hexBytes a.hash).toList ++ post)) =
      (toString b.workchain).toList ++ (sep ++ ((Numeral.hexBytes b.hash).toList ++ post))) :
    a = b := by
  have hlength : (sep ++ ((Numeral.hexBytes a.hash).toList ++ post)).length =
      (sep ++ ((Numeral.hexBytes b.hash).toList ++ post)).length := by
    simp only [List.length_append, Numeral.length_hexBytes, a.hash_length, b.hash_length]
  obtain ⟨hworkchain, hhash⟩ := List.append_inj' h hlength
  rw [Address.mk.injEq]
  exact ⟨Numeral.toString_inj hworkchain,
    Numeral.hexBytes_inj (List.append_cancel_right (List.append_cancel_left hhash))⟩

/-! ## Values -/

namespace Line

@[simp]
theorem toText_plain (s : String) : (plain s).toText = s := by
  simp [plain, toText, Fragment.toText, String.join]

@[simp]
theorem toText_around (before procedure after : String) :
    (around before procedure after).toText = before ++ procedure ++ after := by
  simp [around, toText, Fragment.toText, String.join]

end Line

namespace ConstValue

/-- The kind of value whose literals start with the character. -/
def kindOfStart (c : Char) : String :=
  if c = '"' then "string"
  else if c = 't' ∨ c = 'f' then "bool"
  else if c = 'n' then "null"
  else if c = '_' ∨ c = 'a' then "address"
  else "int"

/-- The kind of value that a literal is of. -/
def kindOf (literal : String) : Option String := literal.toList.head?.map kindOfStart

theorem kindOf_toString (v : Int) (after : String) : kindOf (toString v ++ after) = some "int" := by
  have hdecimal := Numeral.decimal_toString v
  obtain ⟨c, cs, hv⟩ := List.exists_cons_of_ne_nil hdecimal.ne_nil
  have hstart : kindOfStart c = "int" := by
    rcases hdecimal.cases_of_mem (hv ▸ List.mem_cons_self) with hc | rfl | rfl
    · exact Numeral.digit_cases (P := fun c => kindOfStart c = "int") (by decide) hc
    · rfl
    · rfl
  rw [kindOf, String.toList_append, hv, List.cons_append, List.head?_cons, Option.map_some, hstart]

theorem kindOf_codeLiteral (v : ConstValue) : kindOf v.codeLiteral.toText = some v.kindName := by
  cases v with
  | int v =>
    have hint := kindOf_toString v ""
    rwa [String.append_empty] at hint
  | bool b => cases b <;> rfl
  | string s =>
    obtain ⟨body, tail, hs, -⟩ := exists_textLiteral_eq s
    rw [codeLiteral, Line.toText_plain, kindOf, hs]
    rfl
  | null => rfl
  | address a =>
    rw [codeLiteral, Line.toText_around, kindOf]
    simp only [String.toList_append]
    rfl

theorem kindOf_bindingLiteral (v : ConstValue) : kindOf v.bindingLiteral = some v.kindName := by
  cases v with
  | int v => exact kindOf_toString v "n"
  | bool b => cases b <;> rfl
  | string s =>
    rw [bindingLiteral, kindOf, Json.quoted, String.toList_ofList]
    rfl
  | null => rfl
  | address a =>
    rw [bindingLiteral, kindOf]
    simp only [String.toList_append]
    rfl

/-- Values are told apart by their kinds and within each kind. -/
theorem eq_of_literal {f : ConstValue → String} (hkind : ∀ v, kindOf (f v) = some v.kindName)
    (hint : ∀ v w, f (int v) = f (int w) → v = w) (hbool : ∀ b c, f (bool b) = f (bool c) → b = c)
    (hstring : ∀ s t, f (string s) = f (string t) → s = t)
    (haddress : ∀ a b, f (address a) = f (address b) → a = b) {v w : ConstValue}
    (h : f v = f w) : v = w := by
  have hname : v.kindName = w.kindName := by
    have := hkind v
    rw [h, hkind w] at this
    exact (Option.some.inj this).symm
  cases v with
  | int v =>
    cases w with
    | int w => rw [hint v w h]
    | _ => simp [kindName] at hname
  | bool b =>
    cases w with
    | bool c => rw [hbool b c h]
    | _ => simp [kindName] at hname
  | string s =>
    cases w with
    | string t => rw [hstring s t h]
    | _ => simp [kindName] at hname
  | null =>
    cases w with
    | null => rfl
    | _ => simp [kindName] at hname
  | address a =>
    cases w with
    | address b => rw [haddress a b h]
    | _ => simp [kindName] at hname

theorem codeLiteral_inj {v w : ConstValue} (h : v.codeLiteral.toText = w.codeLiteral.toText) :
    v = w := by
  refine eq_of_literal (f := fun v => v.codeLiteral.toText) kindOf_codeLiteral ?_ ?_ ?_ ?_ h
  · intro v w h
    simp only [codeLiteral, Line.toText_plain] at h
    exact Numeral.toString_inj (congrArg String.toList h)
  · decide
  · intro s t h
    simp only [codeLiteral, Line.toText_plain] at h
    exact textLiteral_inj (congrArg String.toList h)
  · intro a b h
    simp only [codeLiteral, Line.toText_around] at h
    have h := congrArg String.toList h
    simp only [String.toList_append, List.append_assoc] at h
    exact Address.eq_of_parts (List.append_cancel_left (List.append_cancel_left h))

theorem bindingLiteral_inj {v w : ConstValue} (h : v.bindingLiteral = w.bindingLiteral) :
    v = w := by
  refine eq_of_literal kindOf_bindingLiteral ?_ ?_ ?_ ?_ h
  · intro v w h
    have h := congrArg String.toList h
    simp only [bindingLiteral, String.toList_append] at h
    exact Numeral.toString_inj (List.append_cancel_right h)
  · decide
  · exact fun s t => Json.quoted_inj
  · intro a b h
    have h := congrArg String.toList h
    simp only [bindingLiteral, Address.text, String.toList_append, List.append_assoc] at h
    exact Address.eq_of_parts (List.append_cancel_left h)

theorem isPrintable_toString (v : Int) : ∀ c ∈ (toString v).toList, IsPrintable c := by
  intro c hc
  rcases (Numeral.decimal_toString v).cases_of_mem hc with hc | rfl | rfl
  · exact Numeral.digit_cases (by decide) hc
  · decide
  · decide

/-- What stands in code is printable. -/
theorem isPrintable_codeLiteral (v : ConstValue) :
    ∀ c ∈ v.codeLiteral.toText.toList, IsPrintable c := by
  cases v with
  | int v =>
    rw [codeLiteral, Line.toText_plain]
    exact isPrintable_toString v
  | bool b => cases b <;> simp [codeLiteral, IsPrintable]
  | string s =>
    obtain ⟨body, tail, hs, hplain⟩ := exists_textLiteral_eq s
    obtain ⟨hbody, htail⟩ := List.forall_mem_append.1 hplain
    rw [codeLiteral, Line.toText_plain, hs]
    simp only [List.forall_mem_cons, List.forall_mem_append]
    exact ⟨by decide, fun c hc => (isPlainChar_iff.1 (hbody c hc)).1, by decide,
      fun c hc => (isPlainChar_iff.1 (htail c hc)).1⟩
  | null => simp [codeLiteral, IsPrintable]
  | address a =>
    have hhash : ∀ c ∈ (Numeral.hexBytes a.hash).toList, IsPrintable c := fun c hc =>
      (isPlainChar_iff.1 (Numeral.isPlainChar_of_mem_hexBytes hc)).1
    rw [codeLiteral, Line.toText_around]
    simp only [String.toList_append, List.forall_mem_append]
    exact ⟨⟨by simp, by simp [ProcName.makeAddress, IsPrintable]⟩,
      ⟨⟨⟨by simp [IsPrintable], isPrintable_toString _⟩, by simp [IsPrintable]⟩, hhash⟩,
      by simp [IsPrintable]⟩

/--
The literals of a value, in code and in bindings, tell it apart from all other values. What stands
in code is printable, and a text in code has no quotes but the two around it and no backslash.
-/
theorem literals_faithful (v w : ConstValue) :
    (v.codeLiteral.toText = w.codeLiteral.toText ↔ v = w)
      ∧ (v.bindingLiteral = w.bindingLiteral ↔ v = w)
      ∧ (∀ c ∈ v.codeLiteral.toText.toList, IsPrintable c)
      ∧ ∀ s, (string s).codeLiteral.toText.toList.count '"' = 2
        ∧ '\\' ∉ (string s).codeLiteral.toText.toList := by
  refine ⟨⟨codeLiteral_inj, fun h => h ▸ rfl⟩, ⟨bindingLiteral_inj, fun h => h ▸ rfl⟩,
    isPrintable_codeLiteral v, fun s => ?_⟩
  obtain ⟨body, tail, hs, hplain⟩ := exists_textLiteral_eq s
  have hnone : '"' ∉ body ++ tail ∧ '\\' ∉ body ++ tail :=
    ⟨fun h => (isPlainChar_iff.1 (hplain _ h)).2.1 rfl,
      fun h => (isPlainChar_iff.1 (hplain _ h)).2.2 rfl⟩
  simp only [List.mem_append, not_or] at hnone
  rw [codeLiteral, Line.toText_plain, hs]
  constructor
  · rw [List.count_cons_self, List.count_append, List.count_cons_self,
      List.count_eq_zero_of_not_mem hnone.1.1, List.count_eq_zero_of_not_mem hnone.1.2]
  · simp [hnone.2]

end ConstValue
end CellPack
