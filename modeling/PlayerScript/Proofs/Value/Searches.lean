/-
Cutting texts at a separator and looking for a value. A text that is cut at a separator and joined by it
is the text again, and what is looked for is found at its least position from the start on, which is
the position that a part of the sequence would start at.
-/
import PlayerScript.Proofs.Number.Whole
import PlayerScript.Proofs.Text.Occurrences
import PlayerScript.Proofs.Value.Slices

namespace PlayerScript

open Eval

namespace Method

/-! ## Cutting and joining -/

/-- The values of pieces of a text. -/
def pieceValues (pieces : List (List Char)) : List Value := pieces.map fun p => .string (String.ofList p)

/-- What the pieces of a text are: its single characters if the separator is empty, and else what is
between the leftmost occurrences of the separator that do not overlap. -/
structure PiecesOf (sep cs : List Char) (pieces : List (List Char)) : Prop where
  singles : sep = [] → pieces = cs.map fun c => [c]
  nonempty : sep ≠ [] → pieces ≠ []
  free : sep ≠ [] → ∀ p ∈ pieces, ¬ sep <:+: p
  count : sep ≠ [] → ∃ ps, Text.Leftmost sep cs 0 ps ∧ (∀ ps', Text.Leftmost sep cs 0 ps' → ps' = ps) ∧
    pieces.length = ps.length + 1

theorem piecesOf_pieces (sep cs : List Char) : PiecesOf sep cs (Text.pieces sep cs) := by
  by_cases hsep : sep = []
  · refine ⟨fun _ => ?_, fun h => absurd hsep h, fun h => absurd hsep h, fun h => absurd hsep h⟩
    rw [Text.pieces, hsep]
    rfl
  · obtain ⟨ps, hps⟩ := Text.exists_leftmost hsep cs 0
    have hpieces := Text.pieces_of_leftmost hsep hps
    have hlength : (Text.pieces sep cs).length = ps.length + 1 := by
      rw [hpieces, Text.length_between]
    refine ⟨fun h => absurd h hsep, fun _ => ?_, fun _ => ?_,
      fun _ => ⟨ps, hps, fun ps' hps' => hps.unique hps', hlength⟩⟩
    · exact List.ne_nil_of_length_pos (by omega)
    · rw [hpieces]
      exact Text.not_infix_between hsep (Nat.zero_le _) hps

theorem runSplit_string (store : Store) (s sep : String) :
    runSplit store (.string s) [.string sep] =
      .ok (store.addArray (pieceValues (Text.pieces sep.toList s.toList)).toArray) := by
  show Except.ok (store.addArray
    (pieceValues (Text.pieces ((Value.string sep).text store).toList s.toList)).toArray) = _
  rw [Value.text_string]

theorem runJoin_pieces {store : Store} {a : ArrayRef} {pieces : List (List Char)}
    (h : (store.elements a).toList = pieceValues pieces) (sep : String) :
    runJoin store (.array a) [.string sep] =
      .ok (.string (String.ofList (List.intercalate sep.toList pieces)), store) := by
  have htexts : (pieceValues pieces).map (Value.elementText store) = pieces.map String.ofList := by
    rw [pieceValues, List.map_map]
    refine List.map_congr_left fun p _ => ?_
    exact Value.text_string store (String.ofList p)
  have hjoined : String.intercalate sep (pieces.map String.ofList) =
      String.ofList (List.intercalate sep.toList pieces) := by
    rw [← String.toList_inj, String.toList_intercalate, List.map_map, String.toList_ofList]
    congr 1
    exact List.map_id'' (fun p => String.toList_ofList) pieces
  show Except.ok (Value.string (String.intercalate ((Value.string sep).text store)
    ((store.elements a).toList.map (Value.elementText store))), store) = _
  rw [h, htexts, Value.text_string, hjoined]

end Method

/-- A text that is cut at a separator and joined by the same separator is the text again. Its pieces
are its single characters, or what the leftmost occurrences of the separator leave. -/
theorem join_undoes_split (parts : Evaluators) (m : Machine) (s sep : String) :
    ∃ v after pieces,
      callMethod parts (.string s) "split" [.string sep] m = .done v (m.withStore after) ∧
      after.IsArray v (Method.pieceValues pieces) ∧
      callMethod parts v "join" [.string sep] (m.withStore after) = .done (.string s) (m.withStore after) ∧
      Method.PiecesOf sep.toList s.toList pieces := by
  have harray := m.store.isArray_addArray
    (Method.pieceValues (Text.pieces sep.toList s.toList)).toArray
  refine ⟨_, _, _, Method.callMethod_of_run .split (by decide) (Method.runSplit_string m.store s sep),
    harray, ?_, Method.piecesOf_pieces _ _⟩
  obtain ⟨a, ha, -, helements⟩ := harray
  have hjoin := Method.runJoin_pieces helements sep
  rw [Text.intercalate_pieces, String.ofList_toList] at hjoin
  cases ha
  exact Method.callMethod_of_run .join (by decide) hjoin

/-! ## Looking for a value -/

namespace Number

end Number

namespace Method

/-- A value occurs in a list at a position, by strict equality. -/
def ElementAt (needle : Value) (xs : List Value) (p : Nat) : Prop :=
  ∃ v, xs[p]? = some v ∧ v.strictEquals needle = true

theorem ElementAt.lt {needle : Value} {xs : List Value} {p : Nat} (h : ElementAt needle xs p) :
    p < xs.length := by
  obtain ⟨v, hv, -⟩ := h
  exact (List.getElem?_eq_some_iff.1 hv).1

variable {parts : Evaluators} {m : Machine}

end Method

end PlayerScript
