import NeuralQuery.Diagnostic

/-!
# NeuralQuery.Typing.Checked

Results of a check that never gives up: a value, and what was found wrong on the way to it, in the
order in which it was found.
-/

namespace NeuralQuery

@[ext] structure Checked (α : Type) where
  value : α
  diagnostics : List Diagnostic

namespace Checked

instance : Monad Checked where
  pure a := ⟨a, []⟩
  bind x f :=
    let y := f x.value
    ⟨y.value, x.diagnostics ++ y.diagnostics⟩

/-- Reports a fault. -/
def note (fault : Fault) (position : Position) : Checked Unit :=
  ⟨(), [⟨fault, position⟩]⟩

/-- Reports a diagnostic. -/
def report (d : Diagnostic) : Checked Unit :=
  ⟨(), [d]⟩

@[simp] theorem value_pure {α : Type} (a : α) : (pure a : Checked α).value = a := rfl

@[simp] theorem diagnostics_pure {α : Type} (a : α) : (pure a : Checked α).diagnostics = [] := rfl

@[simp] theorem value_bind {α β : Type} (x : Checked α) (f : α → Checked β) :
    (x >>= f).value = (f x.value).value := rfl

@[simp] theorem diagnostics_bind {α β : Type} (x : Checked α) (f : α → Checked β) :
    (x >>= f).diagnostics = x.diagnostics ++ (f x.value).diagnostics := rfl

instance : LawfulMonad Checked :=
  LawfulMonad.mk' Checked (fun _ => Checked.ext rfl (List.append_nil _)) (fun _ _ => rfl)
    fun _ _ _ => Checked.ext rfl (List.append_assoc _ _ _)

@[simp] theorem value_map {α β : Type} (f : α → β) (x : Checked α) :
    (f <$> x).value = f x.value := rfl

@[simp] theorem diagnostics_map {α β : Type} (f : α → β) (x : Checked α) :
    (f <$> x).diagnostics = x.diagnostics :=
  List.append_nil _

@[simp] theorem diagnostics_note (f : Fault) (p : Position) :
    (note f p).diagnostics = [⟨f, p⟩] := rfl

@[simp] theorem diagnostics_report (d : Diagnostic) : (report d).diagnostics = [d] := rfl

end Checked
end NeuralQuery
