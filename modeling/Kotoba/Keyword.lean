import Kotoba.Text.Search

/-!
The words that structure a script, by class.
-/

namespace Kotoba

/-- The classes of structuring words. -/
inductive WordClass where
  | delimiter
  | quoteOpen
  | quoteClose
  | blockOpen
  | blockClose
  | ifMark
  | thenMark
  | elseMark
  | loopTarget
  | loopCount
  | loopMark
  | nameMark
  | valueMark
deriving DecidableEq, Repr

namespace WordClass

/-- All classes, in the order in which text is cut at their words. -/
def all : List WordClass :=
  [delimiter, quoteOpen, quoteClose, blockOpen, blockClose, ifMark, thenMark, elseMark, loopTarget,
    loopCount, loopMark, nameMark, valueMark]

def name : WordClass → Text
  | delimiter => "delimiter".toList
  | quoteOpen => "string_start".toList
  | quoteClose => "string_end".toList
  | blockOpen => "evaluate_start".toList
  | blockClose => "evaluate_end".toList
  | ifMark => "if".toList
  | thenMark => "then".toList
  | elseMark => "else".toList
  | loopTarget => "loop_target".toList
  | loopCount => "loop_count".toList
  | loopMark => "loop".toList
  | nameMark => "var_name".toList
  | valueMark => "var_value".toList

/-- The words of a class. The marks of a loop's target and of a bound name are the same word; the
clause in which it stands tells them apart. -/
def words : WordClass → List Text
  | delimiter => [['\n'], ['。']]
  | quoteOpen => [['「']]
  | quoteClose => [['」']]
  | blockOpen => [['こ', 'こ', 'か', 'ら'], ['(']]
  | blockClose => [['こ', 'こ', 'ま', 'で'], [')']]
  | ifMark => [['も', 'し']]
  | thenMark => [['な', 'ら', 'ば']]
  | elseMark => [['違', 'う', 'な', 'ら']]
  | loopTarget => [['を']]
  | loopCount => [['回']]
  | loopMark => [['繰', 'り', '返', 'す']]
  | nameMark => [['を']]
  | valueMark => [['と', 'す', 'る']]

def ofName? (t : Text) : Option WordClass := all.find? fun k ↦ k.name = t

/-- The classes whose words open an enclosure; every other word only divides. -/
def openers : List WordClass := [quoteOpen, blockOpen, ifMark]

theorem ne_nil_of_mem_words {k : WordClass} {w : Text} (h : w ∈ k.words) : w ≠ [] := by
  rintro rfl
  cases k <;> simp [words] at h

end WordClass

/-- Every structuring word, in cutting order. -/
def allWords : List Text := WordClass.all.flatMap WordClass.words

def trueWord : Text := ['真']

def falseWord : Text := ['偽']

def emptyWord : Text := ['空']

def isDelimiter (t : Text) : Bool := WordClass.delimiter.words.contains t

def isOpener (t : Text) : Bool := WordClass.openers.any fun k ↦ k.words.contains t

end Kotoba
