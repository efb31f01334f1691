import Parlance.Proofs.Spelling.Trees
/-!
# Reports with names in lower case

Messages quote names as they are written. So the reports of a failure and of the same failure with
its names in lower case are of one kind and stand at one offset, and their messages differ in letter
case only (`Failure.diagnostic_folded`).
-/
namespace Parlance
open Text

def DiagnosticKind.folded : DiagnosticKind → DiagnosticKind
  | undefinedVariable name => undefinedVariable (lower name)
  | kind => kind

/-- The diagnostic with its message in lower case. -/
def Diagnostic.folded (d : Diagnostic) : Diagnostic := ⟨d.kind.folded, lower d.message, d.offset⟩

theorem foundLabel_folded (found : Option Token) :
    foundLabel (found.map Token.folded) = foundLabel found := by
  cases found with
  | none => rfl
  | some t => simp [foundLabel]

theorem lower_text_folded (t : Token) : lower t.folded.text = lower t.text := by
  unfold Token.folded
  split <;> simp

theorem isEmpty_text_folded (t : Token) : t.folded.text.isEmpty = t.text.isEmpty := by
  have hlower : ∀ s : String, (lower s).isEmpty = s.isEmpty := by
    intro s
    rw [Bool.eq_iff_iff, String.isEmpty_iff, String.isEmpty_iff, ← String.toList_eq_nil_iff,
      ← String.toList_eq_nil_iff]
    simp [lower]
  unfold Token.folded
  split <;> simp [hlower]

theorem lower_foundText_folded (found : Option Token) :
    lower (foundText (found.map Token.folded)) = lower (foundText found) := by
  cases found with
  | none => rfl
  | some t =>
    simp only [Option.map_some, foundText, Token.kind_folded, isEmpty_text_folded, lower_append]
    split
    · rfl
    · simp only [lower_append, lower_text_folded]

theorem offsetOf_folded (length : Nat) (found : Option Token) :
    offsetOf length (found.map Token.folded) = offsetOf length found := by
  cases found with
  | none => rfl
  | some t => simp [offsetOf]

theorem BindingFault.message_folded (fault : BindingFault) :
    lower fault.folded.message = lower fault.message := by
  cases fault with
  | returnOutside => rfl
  | shadowsBuiltin | declaredTwice | parameterTwice | unknownFunction | argumentCount =>
    unfold folded message
    simp only [lower_append, lower_lower]

theorem Fault.message_folded (fault : Fault) :
    lower fault.folded.message = lower fault.message := by
  cases fault with
  | undefined | argumentCount | unknownFunction =>
    unfold folded message
    simp only [lower_append, lower_lower]
  | notList | outOfRange | unboundedRange | readFailed | writeFailed | tooDeep | breakdown | halted
  | timedOut => rw [folded.eq_def]

theorem Fault.kind_folded (fault : Fault) : fault.folded.kind.folded = fault.kind.folded := by
  cases fault with
  | undefined => simp only [folded, kind, DiagnosticKind.folded, lower_lower]
  | argumentCount | unknownFunction | notList | outOfRange | unboundedRange | readFailed
  | writeFailed | tooDeep | breakdown | halted | timedOut => rfl

theorem ParseFault.diagnostic_folded (length : Nat) (fault : ParseFault) :
    (fault.folded.diagnostic length).folded = (fault.diagnostic length).folded := by
  cases fault with
  | missing | noExpression | notAssignable | tooDeep =>
    simp only [folded, diagnostic, Diagnostic.folded, DiagnosticKind.folded, foundLabel_folded,
      lower_append, lower_foundText_folded, offsetOf_folded]
  | notCallable => rw [folded]

/-- The report of a failure and of the same failure with its names in lower case differ in letter
case only. -/
theorem Failure.diagnostic_folded (f : Failure) :
    f.folded.diagnostic.folded = f.diagnostic.folded := by
  cases f with
  | lex fault => rw [folded]
  | parse fault length => exact fault.diagnostic_folded length
  | binding fault =>
    simp only [folded, diagnostic, BindingFault.diagnostic, Diagnostic.folded,
      BindingFault.message_folded]
  | run fault offset =>
    simp only [folded, diagnostic, Fault.diagnostic, Diagnostic.folded, Fault.message_folded,
      Fault.kind_folded]

end Parlance
