/-
Numbers in documents. A number that is the value of an entry is written out, and the text is read like any
other. A whole number that is not negative keeps its value; a double does if it is written without sign and
exponent, so from `10⁻⁴` up to below `10¹⁶` (`Table.number_of_declared`). The exponent of a larger or smaller
one becomes a unit (`Table.number_with_exponent`).
-/
import Stylesheet.Proofs.Constant.Composite
import Stylesheet.Proofs.Constant.Load
import Stylesheet.Proofs.Decimal.Plain

namespace Stylesheet

open Document (Data Scalar Format Reader)
open Double (unitsPerOne overflowUnits Representable)
open Text (Numeral)

/-! ## Texts of numbers -/

namespace Text

theorem allBlank_eq_false {text : String} {c : Char} (hc : c ∈ text.toList) (hblank : isBlank c = false) :
    allBlank text = false := by
  rw [allBlank, List.all_eq_false]
  exact ⟨c, hc, by rw [hblank]; exact Bool.false_ne_true⟩

theorem allBlank_text {n : Numeral} (hdigits : ∀ d ∈ n.whole ++ n.places, d.isDigit = true) (hwhole : n.whole ≠ []) :
    allBlank (String.ofList n.text) = false := by
  obtain ⟨d, hd⟩ := List.exists_mem_of_ne_nil _ hwhole
  refine allBlank_eq_false (c := d) ?_ (isBlank_of_isDigit (hdigits d (List.mem_append_left _ hd)))
  rw [String.toList_ofList, Numeral.text]
  split
  · exact hd
  · exact List.mem_append_left _ hd

end Text

namespace Quantity

theorem read?_eq_some_iff {text : String} {x : Double} : read? text = some ⟨x, none⟩ ↔
    ∃ n, Numeral.split? Text.isDigit text.toList = some (n, []) ∧ n.toDouble = x := by
  unfold read?
  rw [Option.map_eq_some_iff]
  constructor
  · rintro ⟨⟨n, rest⟩, hsplit, hq⟩
    obtain ⟨hnumber, hunit⟩ := Quantity.mk.inj hq
    cases rest with
    | nil => exact ⟨n, hsplit, hnumber⟩
    | cons c rest => cases hunit
  · rintro ⟨n, hsplit, hnumber⟩
    exact ⟨(n, []), hsplit, by dsimp only; rw [hnumber]; rfl⟩

/-- A number without unit is made of digits and a point. -/
theorem isDigit_of_read? {text : String} {x : Double} (h : read? text = some ⟨x, none⟩) :
    ∀ c ∈ text.toList, Text.isDigit c = true ∨ c = '.' := by
  obtain ⟨n, hsplit, -⟩ := read?_eq_some_iff.1 h
  have htext := Numeral.text_append_of_split? hsplit
  rw [List.append_nil] at htext
  rw [← htext]
  exact fun c hc => (Numeral.mem_text hc).imp_left ((Numeral.digits_of_split? hsplit).1 c)

/-- Neither a sign nor an exponent is part of a number without unit. -/
theorem read?_ne_of_mem {text : String} {c : Char} (hc : c ∈ text.toList)
    (hdigit : Text.isDigit c = false) (hpoint : c ≠ '.')
    {x : Double} : read? text ≠ some ⟨x, none⟩ := by
  intro hread
  rcases isDigit_of_read? hread c hc with hd | rfl
  · rw [hdigit] at hd
    cases hd
  · exact hpoint rfl

theorem read?_text {n : Numeral} (hdigits : ∀ d ∈ n.whole ++ n.places, d.isDigit = true) (hwhole : n.whole ≠ []) :
    read? (String.ofList n.text) = some ⟨Double.ofDigits n.whole n.places, none⟩ := by
  rw [read?_eq_some_iff, String.toList_ofList]
  refine ⟨n, ?_, Text.toDouble_of_ascii hdigits⟩
  have hsplit : Numeral.split? Text.isDigit (n.text ++ []) = some (n, []) :=
    Numeral.split?_text_append (by decide) (fun d hd => (Text.isDigit_of_ascii (hdigits d hd)).1) hwhole (by simp)
  rwa [List.append_nil] at hsplit

end Quantity

/-! ## Numbers of documents -/

namespace Document.Scalar

/-- The finite double that a number is, or that is nearest to it. -/
def number? : Scalar → Option Double
  | .int n => if (Double.ofInt n).isFinite then some (Double.ofInt n) else none
  | .float x => if x.isFinite then some x else none
  | _ => none

/-- A number that is written without sign and exponent: a whole number that is not negative, or a double that
is zero, or at least `10⁻⁴` and below `10¹⁶`. -/
def IsPlain : Scalar → Prop
  | .int n => 0 ≤ n
  | .float (.finite negative units _) =>
    negative = false ∧ (units = 0 ∨ unitsPerOne ≤ units * 10 ^ 4 ∧ units < 10 ^ 16 * unitsPerOne)
  | _ => False

end Document.Scalar

/-- The whole numbers that have a finite double are short enough to be written. -/
theorem Document.Whole.write?_of_isFinite {n : Int} (h : (Double.ofInt n).isFinite = true) :
    write? n = some (toString n) := by
  have hlt : n.natAbs * unitsPerOne < overflowUnits := by
    by_contra hle
    rw [Double.ofInt, Double.ofRatio, Double.ofUnits_of_overflow _ (by rw [Nat.div_one]; exact not_lt.1 hle)] at h
    cases h
  have hpow : n.natAbs < Nat.pow 10 Decimal.overflowExponent :=
    Nat.lt_of_mul_lt_mul_right (hlt.trans_le Decimal.overflowUnits_le_pow)
  have hlimit : Decimal.overflowExponent ≤ digitLimit := by decide
  -- the powers of ten are kept from being computed
  unfold write?
  generalize Decimal.overflowExponent = small at hpow hlimit
  generalize digitLimit = large at hlimit ⊢
  have hgrow : Nat.pow 10 small ≤ Nat.pow 10 large := Nat.pow_le_pow_right (by decide) hlimit
  rw [if_pos (hpow.trans_le hgrow)]

/-- The text of a whole number is not blank, and is read as the number without unit if it has no sign. -/
theorem Quantity.read?_toString (n : Int) : Text.allBlank (toString n) = false ∧
    (read? (toString n) = some ⟨.ofInt n, none⟩ ↔ 0 ≤ n) := by
  cases n with
  | ofNat m =>
    let digits : Numeral := ⟨Nat.toDigits 10 m, none⟩
    have htext : toString (Int.ofNat m) = String.ofList digits.text := rfl
    have hdigits : ∀ d ∈ digits.whole ++ digits.places, d.isDigit = true := by
      simpa [digits, Numeral.places] using fun d => Nat.isDigit_of_mem_toDigits (by decide) (by decide)
    rw [htext, read?_text hdigits Nat.toDigits_ne_nil, ← Text.toDouble_of_ascii hdigits, Text.toDouble_toDigits]
    exact ⟨Text.allBlank_text hdigits Nat.toDigits_ne_nil, iff_of_true rfl (Int.natCast_nonneg m)⟩
  | negSucc m =>
    have hsign : '-' ∈ (toString (Int.negSucc m)).toList := by
      show '-' ∈ ("-" ++ toString (m + 1)).toList
      rw [String.toList_append]
      exact List.mem_append_left _ (by decide)
    exact ⟨Text.allBlank_eq_false hsign (by decide),
      iff_of_false (read?_ne_of_mem hsign (by decide) (by decide)) (by simp)⟩

/-- The text of a finite double is not blank, and is read as the double without unit if it has neither sign nor
exponent. -/
theorem Quantity.read?_numeral {negative : Bool} {units : Nat} (hr : Representable units) :
    Text.allBlank (Double.finite negative units hr).numeral = false ∧
      (read? (Double.finite negative units hr).numeral = some ⟨.finite negative units hr, none⟩ ↔
        negative = false ∧ (units = 0 ∨ unitsPerOne ≤ units * 10 ^ 4 ∧ units < 10 ^ 16 * unitsPerOne)) := by
  rw [← Significand.isPlain_shortest_iff hr.1]
  by_cases hplain : (Significand.shortest units).IsPlain
  · cases negative with
    | false =>
      obtain ⟨n, hn, htext⟩ := Double.exists_numeral_eq false hr hplain
      rw [htext, if_neg Bool.false_ne_true, List.nil_append, read?_text hn.digits hn.whole_ne_nil, hn.ofDigits hr]
      exact ⟨Text.allBlank_text hn.digits hn.whole_ne_nil, iff_of_true rfl ⟨rfl, hplain⟩⟩
    | true =>
      have hsign := Double.mem_numeral_of_negative hr
      exact ⟨Text.allBlank_eq_false hsign (by decide),
        iff_of_false (read?_ne_of_mem hsign (by decide) (by decide)) (by simp)⟩
  · have hexponent := Double.mem_numeral_of_not_isPlain hr hplain negative
    exact ⟨Text.allBlank_eq_false hexponent (by decide),
      iff_of_false (read?_ne_of_mem hexponent (by decide) (by decide)) fun h => hplain h.2⟩

namespace Entry

theorem fieldText_of_write? {n : Int} {text : String} (h : Document.Whole.write? n = some text) :
    fieldText (.scalar (.int n)) = .ok (some text) := by
  -- the match is not reduced, for that would compute the greatest number that is written
  unfold fieldText
  split
  case h_4 value heq =>
    cases heq
    rw [h]
  case h_6 _ _ hint _ => exact absurd rfl (hint n)
  all_goals
    rename_i heq
    cases heq

/-- The text of a number is not blank, and is read as the number without unit exactly if it is a plain one. -/
theorem exists_fieldText {v : Scalar} {x : Double} (h : v.number? = some x) : ∃ text,
    fieldText (.scalar v) = .ok (some text) ∧ Text.allBlank text = false ∧
      (Quantity.read? text = some ⟨x, none⟩ ↔ v.IsPlain) := by
  cases v with
  | int n =>
    have hif : (if (Double.ofInt n).isFinite = true then some (Double.ofInt n) else none) = some x := h
    obtain ⟨hfinite, hx⟩ := Option.ite_none_right_eq_some.1 hif
    rw [← Option.some.inj hx]
    exact ⟨toString n, fieldText_of_write? (Document.Whole.write?_of_isFinite hfinite), Quantity.read?_toString n⟩
  | float y =>
    have hif : (if y.isFinite = true then some y else none) = some x := h
    obtain ⟨hfinite, hx⟩ := Option.ite_none_right_eq_some.1 hif
    rw [← Option.some.inj hx]
    cases y with
    | nan => cases hfinite
    | infinite negative => cases hfinite
    | finite negative units hr => exact ⟨_, rfl, Quantity.read?_numeral hr⟩
  | null => cases h
  | bool value => cases h
  | text value => cases h
  | stamp value => cases h

/-- The entry has a name, a type that can be read, and this scalar as its value. -/
structure Declares (entries : Data.Entries) (name : String) (v : Scalar) : Prop where
  named : readField entries "n" "name" = .ok (some name)
  filled : Text.allBlank name = false
  type : ∃ type, readField entries "t" "type" = .ok type
  value : (Data.field? "v" entries).or (Data.field? "value" entries) = some (.scalar v)

theorem readField_of_or {entries : Data.Entries} {short long : String} {data : Data} {text : Option String}
    (h : (Data.field? short entries).or (Data.field? long entries) = some data) (htext : fieldText data = .ok text) :
    readField entries short long = .ok text := by
  unfold readField
  cases hshort : Data.field? short entries with
  | some value =>
    rw [hshort, Option.some_or] at h
    cases h
    dsimp only
    rw [fieldAt, htext]
  | none =>
    rw [hshort, Option.none_or] at h
    rw [h]
    dsimp only
    rw [fieldAt, htext]

end Entry

/-! ## The theorem -/

namespace Table

variable {settings : Settings} {entries : Data.Entries} {name : String} {v : Scalar} {x : Double}

/-- An entry whose value is a number defines a constant, which keeps the number exactly if it is a plain one. -/
theorem exists_constant_of_declares (settings : Settings) (h : Entry.Declares entries name v) (hx : v.number? = some x)
    (source : Data) : ∃ c, Call.constant settings (.putData (.mapping entries) source) = .ok c ∧ c.name = name ∧
      (c.quantity? = some ⟨x, none⟩ ↔ v.IsPlain) := by
  obtain ⟨text, htext, hblank, hread⟩ := Entry.exists_fieldText hx
  obtain ⟨type, htype⟩ := h.type
  have hentry : Entry.read (.mapping entries) = .ok ⟨some name, type, some text⟩ := by
    rw [Entry.read, h.named, htype, Entry.readField_of_or h.value htext]
  have hfilled {s : String} (hs : Text.allBlank s = false) : filled? (some s) = some s := by
    rw [filled?, if_neg (by rw [hs]; exact Bool.false_ne_true)]
  refine ⟨.define settings name text (type.filter (· != "")) source, ?_, rfl, ?_⟩
  · rw [constant_putData, hentry]
    dsimp only
    rw [constantOf, hfilled h.filled, hfilled hblank]
    rfl
  · -- a space in the text would keep it from being read as the number
    rw [Constant.quantity?_eq_some_iff, ← hread]
    refine and_iff_left_of_imp fun hnumber _ hspace => ?_
    exact Quantity.read?_ne_of_mem hspace (by decide) (by decide) hnumber

/-- An entry of whatever type with a finite number as its value defines a constant, put into a table by itself or
loaded with a document whose other items define constants, and none behind it one of its name. The constant has
the number, as a double and without unit, exactly if the number is not negative and written without exponent: a
whole number, or a double that is zero, or at least `10⁻⁴` and below `10¹⁶`. -/
theorem number_of_declared (settings : Settings) (h : Entry.Declares entries name v) (hx : v.number? = some x) :
    (∀ table : Table, table.settings = settings → ∀ source, ∃ c other,
      (Call.make (.putData (.mapping entries) source)).on table = (.ok c, other) ∧
        other.constants.find? name = some c ∧ (c.quantity? = some ⟨x, none⟩ ↔ v.IsPlain)) ∧
    ∀ (reader : Reader) (text : String) (format : Option Format) (data : Data) (before after : List Data),
      reader (format.getD (Format.detect text.toList)) text.toList = .ok data →
      Lists data (before ++ .mapping entries :: after) →
      (∀ item ∈ before ++ after, ∃ c, itemConstant settings item = .ok c) → (∀ item ∈ after, ¬ Names item name) →
      ∃ table c, load reader settings text format = .ok table ∧ table.constants.find? name = some c ∧
        (c.quantity? = some ⟨x, none⟩ ↔ v.IsPlain) := by
  constructor
  · rintro table rfl source
    obtain ⟨c, hc, rfl, hquantity⟩ := exists_constant_of_declares table.settings h hx source
    refine ⟨c, table.add c, ?_, ?_, hquantity⟩
    · rw [Call.on_make, hc]
      rfl
    · rw [constants_add, NameMap.find?_insert_self]
  · intro reader text format data before after hread hitems hothers hlater
    obtain ⟨c, hconstant, rfl, hquantity⟩ := exists_constant_of_declares settings h hx .null
    have hc : itemConstant settings (.mapping entries) = .ok c := hconstant
    obtain ⟨front, hfront⟩ := exists_mapM_ok fun item hi => hothers item (List.mem_append_left _ hi)
    obtain ⟨back, hback⟩ := exists_mapM_ok fun item hi => hothers item (List.mem_append_right _ hi)
    have hall : (before ++ .mapping entries :: after).mapM (itemConstant settings) = .ok (front ++ c :: back) := by
      rw [List.mapM_append, hfront]
      show ((Data.mapping entries :: after).mapM (itemConstant settings) >>= _) = _
      rw [mapM_cons_of_ok hc hback]
      rfl
    obtain ⟨source, front', back', hplaced, hnames⟩ := exists_placed_append indexSource front c back
    refine ⟨_, c.withSource source, (load_eq_ok_iff_items hread hitems).2 ⟨_, hall, rfl⟩, ?_, hquantity⟩
    rw [find?_constants_addAll, hplaced]
    refine lastNamed_of_not_mem fun d hd hname => ?_
    -- a constant of the name behind it is that of an item of the name
    obtain ⟨e, he, hde⟩ : ∃ e ∈ back, e.name = d.name := by
      rw [← List.mem_map, ← hnames]
      exact List.mem_map_of_mem hd
    obtain ⟨item, hitem, hitemc⟩ := exists_of_mapM_ok hback he
    exact hlater item hitem ((names_of_itemConstant hitemc).2 (hde.trans hname))

/-- A gap of ten, put into a table and loaded with a constant in front of it. -/
theorem number_of_declared_whole :
    let gap : Data.Entries := [(.text "n", .scalar (.text "gap")), (.text "v", .scalar (.int 10))]
    let text := "[\x7b\"n\": \"gap\", \"v\": \"4px\"\x7d, \x7b\"n\": \"gap\", \"v\": 10\x7d]"
    (∃ c other, (Call.make (.putData (.mapping gap) .null)).on (empty {}) = (.ok c, other) ∧
      other.constants.find? "gap" = some c ∧ c.quantity? = some ⟨.ofInt 10, none⟩) ∧
    ∃ table c, load Document.Json.reader {} text (some .json) = .ok table ∧ table.constants.find? "gap" = some c ∧
      c.quantity? = some ⟨.ofInt 10, none⟩ := by
  intro gap text
  have hgap : Entry.Declares gap "gap" (.int 10) := ⟨rfl, rfl, ⟨none, rfl⟩, rfl⟩
  have hten : Scalar.number? (.int 10) = some (.ofInt 10) := by decide +kernel
  have hplain : Scalar.IsPlain (.int 10) := by
    show (0 : Int) ≤ 10
    decide
  obtain ⟨hput, hload⟩ := number_of_declared {} hgap hten
  constructor
  · obtain ⟨c, other, hcall, hfind, hquantity⟩ := hput (empty {}) rfl .null
    exact ⟨c, other, hcall, hfind, hquantity.2 hplain⟩
  · let first : Data := .mapping [(.text "n", .scalar (.text "gap")), (.text "v", .scalar (.text "4px"))]
    have htokens : Document.Json.tokens? text.toList =
        some [.openList, .openMapping, .scalar (.text "n"), .colon, .scalar (.text "gap"), .comma, .scalar (.text "v"),
          .colon, .scalar (.text "4px"), .closeMapping, .comma, .openMapping, .scalar (.text "n"), .colon,
          .scalar (.text "gap"), .comma, .scalar (.text "v"), .colon, .scalar (.int 10),
          .closeMapping, .closeList] := by
      decide +kernel
    have hread : Document.Json.reader .json text.toList = .ok (.list [first, .mapping gap]) := by
      rw [Document.Json.reader, Document.Json.read?, htokens]
      rfl
    obtain ⟨table, c, htable, hfind, hquantity⟩ := hload Document.Json.reader text (some .json) _ [first] [] hread
      (.inl rfl) (by simpa using ⟨_, rfl⟩) (by simp)
    exact ⟨table, c, htable, hfind, hquantity.2 hplain⟩

/-- A double of `10¹⁶` becomes one, and its exponent a unit. -/
theorem number_with_exponent :
    let x := Double.ofInt (10 ^ 16)
    let big : Data.Entries := [(.text "n", .scalar (.text "big")), (.text "v", .scalar (.float x))]
    Scalar.number? (.float x) = some x ∧ ∃ c, ((Call.make (.putData (.mapping big) .null)).on (empty {})).1 = .ok c ∧
      c.rawValue = "1e+16" ∧ c.quantity? = some ⟨.ofInt 1, some "e+16"⟩ := by
  intro x big
  obtain ⟨c, hcall, hc⟩ : ∃ c, ((Call.make (.putData (.mapping big) .null)).on (empty {})).1 = .ok c ∧
      (c.rawValue, c.quantity?) = ("1e+16", some ⟨.ofInt 1, some "e+16"⟩) := by
    rw [Call.on_make_fst]
    exact exists_ok_of_toOption (by decide +kernel)
  obtain ⟨hvalue, hquantity⟩ := Prod.mk.inj hc
  exact ⟨by decide +kernel, c, hcall, hvalue, hquantity⟩

end Table

end Stylesheet
