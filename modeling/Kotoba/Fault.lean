import Kotoba.Text.Decimal
import Kotoba.Text.Escaped
import Kotoba.Token

/-!
What can go wrong. A `Complaint` is a cause that a script's author can mend; it is reported with a
category, a message and the lines concerned. A `Fault` is a complaint with its lines or a failure
of another kind.
-/

namespace Kotoba

/-- Lines in words: unknown, one line, or a first and a last one. -/
def positionText : (first last : Option Int) → Text
  | none, _ => "位置不明".toList
  | some a, none => Text.ofInt a ++ "行目くらい".toList
  | some a, some b =>
    if a = b then Text.ofInt a ++ "行目くらい".toList
    else Text.ofInt a ++ '〜' :: Text.ofInt b ++ "行目くらい".toList

inductive Category where
  | general
  | grammar
  | argument
deriving DecidableEq, Repr

def Category.label : Category → Text
  | general => "エラー".toList
  | grammar => "構文エラー".toList
  | argument => "引数エラー".toList

/-- A message to the script's author. -/
structure Report where
  category : Category
  message : Text
  first : Option Int
  last : Option Int
deriving DecidableEq, Repr

namespace Report

/-- A report with no last line of its own concerns the first line only. -/
def onLines (category : Category) (message : Text) (first last : Option Int) : Report :=
  ⟨category, message, first, last.or first⟩

def onTokens (category : Category) (message : Text) (ts : List Token) : Report :=
  onLines category message (Token.firstLine? ts) (Token.lastLine? ts)

def position (r : Report) : Text := positionText r.first r.last

def text (r : Report) : Text :=
  r.category.label ++ " : ".toList ++ r.message ++ " : ".toList ++ r.position

end Report

inductive Complaint where
  /-- An enclosure lacks a word of this class. -/
  | unclosed (missing : WordClass)
  | malformed (source : Text)
  | noExpression (source : Text)
  | noArgument (source : Text)
  | noName (source : Text)
  | countNotNumber
  | countNotFinite
  | notDisplayable (target : Text)
  | incomparable (left right : Text)
deriving DecidableEq, Repr

namespace Complaint

def category : Complaint → Category
  | unclosed _ | malformed _ | noExpression _ | noArgument _ | noName _ => .grammar
  | countNotNumber | countNotFinite | notDisplayable _ | incomparable _ _ => .argument

def message : Complaint → Text
  | unclosed missing => Text.join ['・'] missing.words ++ "が見つかりません。".toList
  | malformed source => source
  | noExpression source => "式がありません。 : ".toList ++ source
  | noArgument source => "引数が指定されていません。 : ".toList ++ source
  | noName source => "変数名が指定されていません。 : ".toList ++ source
  | countNotNumber => "回数が数値ではありません。".toList
  | countNotFinite => "回数が有限の数値ではありません。".toList
  | notDisplayable target => '「' :: target ++ "」に表示することはできません。".toList
  | incomparable left right =>
    '「' :: left ++ "」と「".toList ++ right ++ "」は比較できません。".toList

end Complaint

inductive Fault where
  | complaint (cause : Complaint) (first last : Option Int)
  /-- A saved position was asked for and there was none. -/
  | nothingSaved
  | adjacentCaptures
  | notOpener (text : Text)
  /-- A value from outside of no kind that scripts know, perhaps with the place it was given for. -/
  | unsupported (typeName : Text) (place : Option Text)
  | emptySeparator
  | tooManyDigits (count : Nat)
  /-- A whole number of too many digits was to be put in words. -/
  | unprintable
  | countTooLarge
  /-- A failure of a callable from outside, passed on. -/
  | host (text : Text)
deriving DecidableEq, Repr

namespace Fault

def onTokens (cause : Complaint) (ts : List Token) : Fault :=
  complaint cause (Token.firstLine? ts) (Token.lastLine? ts)

def report? : Fault → Option Report
  | complaint cause first last => some (.onLines cause.category cause.message first last)
  | _ => none

def message : Fault → Text
  | complaint cause first last => (Report.onLines cause.category cause.message first last).text
  | nothingSaved => "restore_position without a saved position".toList
  | adjacentCaptures => "pattern has two consecutive captures".toList
  | notOpener text => text.escaped ++ " does not open an enclosure".toList
  | unsupported typeName none => "unsupported runtime type ".toList ++ typeName
  | unsupported typeName (some place) =>
    place ++ " has unsupported runtime type ".toList ++ typeName
  | emptySeparator => "empty separator".toList
  | tooManyDigits count =>
    "Exceeds the limit (4300 digits) for integer string conversion: value has ".toList ++
      Text.ofNat count ++
      " digits; use sys.set_int_max_str_digits() to increase the limit".toList
  | unprintable =>
    "Exceeds the limit (4300 digits) for integer string conversion; ".toList ++
      "use sys.set_int_max_str_digits() to increase the limit".toList
  | countTooLarge => "int too large to convert to float".toList
  | host text => text

end Fault

theorem eq_error_of_map {α β : Type} {x : Except Fault α} {f : α → β} {e : Fault}
    (h : x.map f = .error e) : x = .error e := by
  cases x with
  | ok a => cases h
  | error e' => exact congrArg Except.error (Except.error.inj h)

end Kotoba
