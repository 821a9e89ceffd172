/-
Memoized results. A memo keeps the first value stored under a name for good. A computation may
itself use the memo; the entry of whichever computation stores first is the one that stays.
-/
import PlayerScript.Table

namespace PlayerScript

/-- Where a memo sits inside a larger state. -/
structure MemoView (σ α : Type) where
  get : σ → Table α
  update : (Table α → Table α) → σ → σ

namespace MemoView

variable {σ ε α : Type}

/-- The stored value under a name, or else the value of `compute`, which is stored unless the
computation has itself stored one under the same name. The value of `compute` is returned in
either case. A failing computation stores nothing by itself. -/
def fetch (view : MemoView σ α) (name : String) (compute : σ → Except ε α × σ) (s : σ) :
    Except ε α × σ :=
  match (view.get s).get? name with
  | some value => (.ok value, s)
  | none =>
    match compute s with
    | (.ok value, s') => (.ok value, view.update (fun t => t.insertNew name value) s')
    | (.error e, s') => (.error e, s')

end MemoView

/-- A request to a memo: a look-up, or a fetch whose computation makes requests of its own and
then succeeds or fails. -/
inductive MemoRequest (ε α : Type) where
  | get (name : String)
  | fetch (name : String) (inner : List (MemoRequest ε α)) (result : Except ε α)

namespace MemoRequest

variable {ε α : Type}

instance : Inhabited (MemoRequest ε α) := ⟨.get ""⟩

/-- A memo together with the names whose computation was started, in that order. -/
structure Trace (α : Type) where
  memo : Table α
  started : List String

/-- The memo inside a trace. -/
def Trace.view (α : Type) : MemoView (Trace α) α where
  get t := t.memo
  update f t := { t with memo := f t.memo }

/-- Notes that the computation for a name is started. -/
def Trace.start (t : Trace α) (name : String) : Trace α :=
  { t with started := t.started ++ [name] }

mutual

/-- Carries out a request. A look-up never fails, and may find nothing. -/
def run : MemoRequest ε α → Trace α → Except ε (Option α) × Trace α
  | .get name, t => (.ok (t.memo.get? name), t)
  | .fetch name inner result, t =>
    let answer := (Trace.view α).fetch name (fun s => (result, runAll inner (s.start name))) t
    (answer.1.map some, answer.2)

/-- Carries out requests one after another, whether or not they fail. -/
def runAll : List (MemoRequest ε α) → Trace α → Trace α
  | [], t => t
  | r :: rest, t => runAll rest (run r t).2

end

end MemoRequest
end PlayerScript
