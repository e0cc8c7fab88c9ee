import CodeAtlas.Proofs.Fallible
import CodeAtlas.Report
/-
  The results of reports.

  What a run says on the way has no part in its result: the result of one
  report after another is the one result after the other, and a report for
  every member of a list has the result of a step for every member. The notes
  of one report follow those of the other.
-/

namespace CodeAtlas.Report

variable {α β : Type}

theorem result_bind (r : Report α) (f : α → Report β) :
    (r >>= f).result = r.result >>= fun a => (f a).result := by
  show (andThen r f).result = _
  unfold andThen
  cases r.result with
  | error c => rfl
  | ok a => rfl

/-- The first of two reports gives an answer when both together do. -/
theorem answers_of_bind {r : Report α} {f : α → Report β} (h : Answers (r >>= f).result) :
    Answers r.result := by
  rw [result_bind] at h
  exact h.of_bind

@[simp] theorem result_note (notes : List Note) : (note notes).result = .ok () := rfl

@[simp] theorem result_say (level : Level) (text : String) : (say level text).result = .ok () := rfl

theorem asked_eq_ok {e : Except Trouble α} {a : α} : (asked e).result = .ok a ↔ e = .ok a :=
  mapError_eq_ok

theorem resolved_eq_ok {e : Except Trouble α} {a : α} : (resolved e).result = .ok a ↔ e = .ok a :=
  mapError_eq_ok

/-- The notes of one report after another follow each other. -/
theorem notes_bind {r : Report α} {a : α} (h : r.result = .ok a) (f : α → Report β) :
    (r >>= f).notes = r.notes ++ (f a).notes := by
  show (andThen r f).notes = _
  rw [andThen, h]

theorem result_mapM (f : α → Report β) (l : List α) :
    (l.mapM f).result = l.mapM fun a => (f a).result := by
  induction l with
  | nil => rfl
  | cons a l ih =>
    rw [List.mapM_cons, List.mapM_cons, result_bind]
    congr 1
    funext b
    rw [result_bind, ih]
    rfl

theorem result_filterM (f : α → Report Bool) (l : List α) :
    (l.filterM f).result = l.filterM fun a => (f a).result := by
  have haux : ∀ l acc : List α,
      (l.filterAuxM f acc).result = l.filterAuxM (fun a => (f a).result) acc := by
    intro l
    induction l with
    | nil => exact fun acc => rfl
    | cons a l ih =>
      intro acc
      rw [List.filterAuxM, List.filterAuxM, result_bind]
      congr 1
      funext keep
      exact ih _
  rw [List.filterM, List.filterM, result_bind, haux]
  rfl

end CodeAtlas.Report

namespace CodeAtlas

theorem consoleText_append (verbose : Bool) (notes more : List Note) :
    consoleText verbose (notes ++ more)
      = consoleText verbose notes ++ consoleText verbose more := by
  rw [consoleText, List.filterMap_append, String.join_append]
  rfl

end CodeAtlas
