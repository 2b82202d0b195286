import ApiOutline.Proofs.Disk.Paths
import ApiOutline.Proofs.Json.RoundTrip
import Mathlib.Data.Bool.AllAny

/-!
# Escaped documents in files

A document whose style escapes is plain text: it holds ASCII characters alone, and no line ends but
`\n`. Such a text is what the file of its bytes is read as (`text_encode`), so for escaped documents
nothing is lost between the text that is written and the text that is read. Neither holds of other
texts: a lone surrogate is written as bytes that are refused, and `\r` is read as `\n`.
-/

namespace ApiOutline

/-- A text of ASCII characters with no line ends but `\n`. -/
def Text.IsPlain (s : String) : Prop :=
  ∀ c ∈ s.toList, c.toNat < 0x80 ∧ c ≠ '\r'

namespace Text.IsPlain

private theorem of_all {s : String}
    (h : (s.toList.all fun c => decide (c.toNat < 0x80 ∧ c ≠ '\r')) = true) : IsPlain s :=
  List.all_iff_forall_prop.mp h

theorem append {s t : String} (hs : IsPlain s) (ht : IsPlain t) : IsPlain (s ++ t) := by
  intro c hc
  rw [String.toList_append] at hc
  exact (List.mem_append.mp hc).elim (hs c) (ht c)

theorem join {parts : List String} (h : ∀ s ∈ parts, IsPlain s) : IsPlain (String.join parts) := by
  induction parts with
  | nil => exact nofun
  | cons s parts ih =>
    obtain ⟨hs, hparts⟩ := List.forall_mem_cons.mp h
    rw [String.join_cons]
    exact hs.append (ih hparts)

theorem intercalate {sep : String} (hsep : IsPlain sep) {parts : List String}
    (h : ∀ s ∈ parts, IsPlain s) : IsPlain (sep.intercalate parts) := by
  intro c hc
  rw [String.toList_intercalate] at hc
  induction parts with
  | nil => cases hc
  | cons s parts ih =>
    obtain ⟨hs, hparts⟩ := List.forall_mem_cons.mp h
    cases parts with
    | nil =>
      rw [List.map_cons, List.map_nil, List.intercalate_singleton] at hc
      exact hs c hc
    | cons t parts =>
      rw [List.map_cons, List.map_cons, List.intercalate_cons_cons] at hc
      rcases List.mem_append.mp hc with hc | hc
      · exact (List.mem_append.mp hc).elim (hs c) (hsep c)
      · exact ih hparts hc

end Text.IsPlain

open Text (IsPlain)

/-! ### In files -/

private theorem Text.unifyLineEnds_eq_self {cs : List Char} (h : '\r' ∉ cs) :
    Text.unifyLineEnds cs = cs := by
  induction cs with
  | nil => rfl
  | cons c cs ih =>
    obtain ⟨hc, hcs⟩ := List.ne_and_not_mem_of_not_mem_cons h
    rw [Text.unifyLineEnds.eq_4 _ _ (fun _ heq _ => hc heq.symm) fun heq => hc heq.symm, ih hcs]

/-- Plain text as bytes. -/
private theorem Utf8.encode_of_plain {s : String} (h : IsPlain s) :
    Utf8.encode s = s.toList.map fun c => UInt8.ofNat c.toNat := by
  rw [Utf8.encode, Disk.symbols_of_ascii fun c hc => (h c hc).1, List.flatMap_map]
  have hcode : ∀ c ∈ s.toList, Utf8.encodeCode (Symbol.code (.char c)) = [UInt8.ofNat c.toNat] :=
    fun c hc => if_pos (h c hc).1
  rw [List.flatMap_congr hcode, ← List.map_eq_flatMap]

/-- **Plain text is read from its bytes.** -/
theorem text_encode {s : String} (h : IsPlain s) {file : File}
    (hbytes : file.bytes = Utf8.encode s) : file.text = .ok s := by
  have hbyte : ∀ c ∈ s.toList, (UInt8.ofNat c.toNat).toNat = c.toNat := fun c hc => by
    have hascii := (h c hc).1
    rw [UInt8.toNat_ofNat', Nat.mod_eq_of_lt (by omega)]
  have hdecode : Utf8.decodeFrom 0 (Utf8.encode s) = .ok s.toList := by
    rw [Utf8.encode_of_plain h, Utf8.decodeFrom_ascii, List.map_map]
    · refine congrArg Except.ok ?_
      conv_rhs => rw [← List.map_id s.toList]
      refine List.map_congr_left fun c hc => ?_
      rw [Function.comp_apply, hbyte c hc, Char.ofNat_toNat, id]
    · intro b hb
      obtain ⟨c, hc, rfl⟩ := List.mem_map.mp hb
      rw [hbyte c hc]
      exact (h c hc).1
  have hreturn : '\r' ∉ s.toList := fun hmem => (h _ hmem).2 rfl
  have hsymbols := Disk.symbols_of_ascii fun c hc => (h c hc).1
  rw [File.text, hbytes, hdecode]
  change Except.ok (Text.ofChars (Text.unifyLineEnds s.toList)) = _
  rw [Text.unifyLineEnds_eq_self hreturn, Text.ofChars, ← hsymbols, Text.ofSymbols_symbols]

/-! ### Written documents -/

namespace Json

private theorem plain_digits {base : Nat} (hbase : 1 < base) (hbase' : base ≤ 16) (n : Nat) :
    IsPlain (String.ofList (Nat.toDigits base n)) := by
  have hdigit : ∀ k < 16, (Nat.digitChar k).toNat < 0x80 ∧ Nat.digitChar k ≠ '\r' := by decide
  rw [IsPlain, String.toList_ofList]
  induction n using Nat.strong_induction_on with
  | h n ih =>
    intro c hc
    rw [Nat.toDigits_eq_if hbase] at hc
    split_ifs at hc with hn
    · rw [List.mem_singleton.mp hc]
      exact hdigit n (by omega)
    · rcases List.mem_append.mp hc with hc | hc
      · exact ih (n / base) (Nat.div_lt_self (by omega) hbase) c hc
      · rw [List.mem_singleton.mp hc]
        exact hdigit _ ((Nat.mod_lt n (by omega)).trans_le hbase')

private theorem plain_unitEscape (n : Nat) : IsPlain (unitEscape n) := by
  have hmark : IsPlain "\\u" := .of_all (by decide)
  refine hmark.append fun c hc => ?_
  rw [Text.hex, String.toList_ofList] at hc
  rcases List.mem_append.mp hc with hc | hc
  · rw [List.eq_of_mem_replicate hc]
    decide
  · exact @plain_digits 16 (by decide) le_rfl n c (by rwa [String.toList_ofList])

private theorem plain_codeEscape (n : Nat) : IsPlain (codeEscape n) := by
  rw [codeEscape]
  split_ifs
  · exact plain_unitEscape n
  · exact (plain_unitEscape _).append (plain_unitEscape _)

private theorem plain_shortEscape {a : Symbol} {text : String} (h : shortEscape? a = some text) :
    IsPlain text := by
  rw [shortEscape?.eq_def] at h
  split at h
  case h_8 => cases h
  all_goals
    obtain rfl := Option.some.inj h
    exact .of_all (by decide)

private theorem plain_writeSymbol {style : Style} (hascii : style.ascii = true) {a : Symbol}
    (hsound : a.isSound = true) : IsPlain (writeSymbol style a) := by
  rw [writeSymbol.eq_def]
  cases hshort : shortEscape? a with
  | some text => exact plain_shortEscape hshort
  | none =>
    dsimp only
    split_ifs with hcontrol hraw
    · exact plain_unitEscape a.code
    · -- a symbol that stands for itself is a printable character
      have hcode : a.code < 0x7F := by simpa [hascii] using hraw
      cases a with
      | char c =>
        have hmark : c ≠ Symbol.mark := by
          rintro rfl
          exact absurd hcode (by decide)
        intro d hd
        rw [Text.ofSymbols, String.toList_ofList, List.flatMap_singleton, Symbol.spelling,
          if_neg hmark, List.mem_singleton] at hd
        rw [hd]
        refine ⟨Nat.lt_succ_of_lt hcode, ?_⟩
        rintro rfl
        exact hcontrol (by decide)
      | lone unit =>
        simp only [Symbol.isSound, Symbol.isSurrogate, decide_eq_true_eq] at hsound
        simp only [Symbol.code] at hcode
        omega
      | stray => cases hsound
    · exact plain_codeEscape a.code

private theorem plain_writeString {style : Style} (hascii : style.ascii = true) {s : String}
    (h : style.Writes s) : IsPlain (writeString style s) := by
  have hquote : IsPlain "\"" := .of_all (by decide)
  refine (hquote.append (.join fun text htext => ?_)).append hquote
  obtain ⟨a, ha, rfl⟩ := List.mem_map.mp htext
  refine plain_writeSymbol hascii ((isSound_of_mem_symbols ha).resolve_right ?_)
  rintro rfl
  exact h hascii ha

private theorem plain_newLine (depth : Nat) : IsPlain (newLine depth) := by
  intro c hc
  rw [toList_newLine] at hc
  rcases List.mem_cons.mp hc with rfl | hc
  · decide
  · rw [List.eq_of_mem_replicate hc]
    decide

private theorem plain_writeBlock {opening closing : String} (hopening : IsPlain opening)
    (hclosing : IsPlain closing) {lines : List String} (h : ∀ line ∈ lines, IsPlain line)
    (depth : Nat) : IsPlain (writeBlock depth opening closing lines) := by
  have hcomma : IsPlain "," := .of_all (by decide)
  rw [writeBlock]
  split_ifs
  · exact hopening.append hclosing
  · exact (((hopening.append (plain_newLine _)).append
      (.intercalate (hcomma.append (plain_newLine _)) h)).append (plain_newLine _)).append hclosing

/-- **An escaped document is plain text.** -/
theorem Storable.plain {style : Style} (hascii : style.ascii = true) {v : Json}
    (h : Storable style.Writes v) (depth : Nat) : IsPlain (writeAt style depth v) := by
  have hmarks : ∀ text ∈ ["null", "true", "false", "-", "[", "]", "\x7b", "\x7d", ": "],
      IsPlain text := by
    have hall : ∀ text ∈ ["null", "true", "false", "-", "[", "]", "\x7b", "\x7d", ": "],
        (text.toList.all fun c => decide (c.toNat < 0x80 ∧ c ≠ '\r')) = true := by decide
    exact fun text htext => .of_all (hall text htext)
  simp only [List.forall_mem_cons] at hmarks
  obtain ⟨hnull, htrue, hfalse, hminus, hopen, hclose, hopen', hclose', hcolon, -⟩ := hmarks
  induction h generalizing depth with
  | null => exact hnull
  | bool b =>
    rw [writeAt]
    cases b
    · exact hfalse
    · exact htrue
  | int _ =>
    rw [writeAt, Text.decimalInt]
    split_ifs
    · exact hminus.append (plain_digits (by decide) (by decide) _)
    · exact plain_digits (by decide) (by decide) _
  | str h => exact plain_writeString hascii h
  | arr _ ih =>
    rw [writeAt_arr]
    refine plain_writeBlock hopen hclose (fun line hline => ?_) depth
    obtain ⟨item, hitem, rfl⟩ := List.mem_map.mp hline
    exact ih item hitem _
  | @obj fields _ hnames _ ih =>
    rw [writeAt_obj]
    refine plain_writeBlock hopen' hclose' (fun line hline => ?_) depth
    obtain ⟨field, hfield, rfl⟩ := List.mem_map.mp hline
    have hmem := (style.perm_order fields).mem_iff.mp hfield
    exact ((plain_writeString hascii (hnames field hmem)).append hcolon).append (ih field hmem _)

end Json

end ApiOutline
