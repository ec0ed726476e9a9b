import RuleFlow.Proofs.Graph.Rollups
import RuleFlow.Proofs.Rule.Timestamp

/-!
# The last run in time

A roll-up tells of the execution with the highest time stamp, and stamps are compared as texts.  If
they agree in form, with one separator and equally many digits of a second, this is the latest
execution.  Otherwise others can be later, and `Rollup.lastRun_earlier_iff` says which: those whose
stamp is misjudged.
-/

namespace RuleFlow.Rollup

/-- What a roll-up tells of is an execution of the list, and none is later but those with a
misjudged stamp. -/
theorem lastRun_earlier_iff {records : List Execution} (h : records ≠ []) :
    ∃ last ∈ records, (ofExecutions records).lastStatus = some last.status ∧
      (ofExecutions records).lastStartedAt = some last.startedAt ∧
      ∀ t : Timestamp, last.startedAt = t.text →
        ∀ e ∈ records, ∀ u : Timestamp, e.startedAt = u.text →
          (t.instant < u.instant ↔ t.Misjudged u) ∧
            (t.separator = u.separator → t.fraction.length = u.fraction.length →
              u.instant ≤ t.instant) := by
  have htotal : (ofExecutions records).total ≠ 0 := by
    rw [(tallies_ofExecutions records).total]
    exact mt List.length_eq_zero_iff.mp h
  obtain ⟨i, last, hlatest, hstatus, hstartedAt⟩ := (tallies_ofExecutions records).last htotal
  refine ⟨last, List.mem_of_getElem? hlatest.at_place, hstatus, hstartedAt,
    fun t ht e he u hu => ?_⟩
  have hle : u.text ≤ t.text := by
    rw [← ht, ← hu]
    exact Text.bytes_le_bytes_iff.mp (hlatest.greatest e he)
  have hlater : t.instant < u.instant ↔ t.Misjudged u := by
    rw [← Timestamp.text_le_and_instant_lt_iff, and_iff_right hle]
  refine ⟨hlater, fun hsep hlength => ?_⟩
  rw [← not_lt, hlater]
  exact Timestamp.not_misjudged hsep hlength

/-! ## Half a second -/

/-- The stamp `2024-05-01T12:00:00Z`. -/
def noon : Timestamp where
  date := ⟨2024, 5, 1, by decide, by decide, by decide⟩
  separator := 'T'
  clock := ⟨12, 0, 0, by decide, by decide, by decide⟩
  fraction := []
  separator_mem := by decide
  leap_second := by decide

/-- The stamp `2024-05-01T12:00:00.5Z`. -/
def afterNoon : Timestamp := { noon with fraction := [⟨5, by decide⟩] }

/-- A run at noon that fails, and one half a second later that does not. -/
def noonRuns : List Execution :=
  [⟨"e1", .failed, "2024-05-01T12:00:00Z", none⟩, ⟨"e2", .success, "2024-05-01T12:00:00.5Z", none⟩]

theorem lastStartedAt_noonRuns : (ofExecutions noonRuns).lastStartedAt = some noon.text := by decide

theorem afterNoon_mem_noonRuns : ⟨"e2", .success, afterNoon.text, none⟩ ∈ noonRuns :=
  List.mem_cons_of_mem _ List.mem_cons_self

theorem lastRun_earlier_noonRuns : noonRuns ≠ [] ∧ ∃ last ∈ noonRuns,
    (ofExecutions noonRuns).lastStatus = some last.status ∧ last.startedAt = noon.text ∧
      (noon.instant < afterNoon.instant ↔ noon.Misjudged afterNoon) := by
  have hne : noonRuns ≠ [] := List.cons_ne_nil _ _
  obtain ⟨last, hmem, hstatus, hstartedAt, hlater⟩ := lastRun_earlier_iff hne
  have hnoon : last.startedAt = noon.text :=
    Option.some.inj (hstartedAt.symm.trans lastStartedAt_noonRuns)
  exact ⟨hne, last, hmem, hstatus, hnoon,
    (hlater noon hnoon _ afterNoon_mem_noonRuns afterNoon rfl).1⟩

/-- The latest run need not be the one that a roll-up tells of. -/
theorem lastRun_not_latest : ¬ ∀ records : List Execution,
    (∀ e ∈ records, ∃ u : Timestamp, e.startedAt = u.text) →
      ∀ t : Timestamp, (ofExecutions records).lastStartedAt = some t.text →
        ∀ e ∈ records, ∀ u : Timestamp, e.startedAt = u.text → u.instant ≤ t.instant := by
  intro h
  have hstamps : ∀ e ∈ noonRuns, ∃ u : Timestamp, e.startedAt = u.text := by
    intro e he
    rcases List.mem_pair.mp he with rfl | rfl
    · exact ⟨noon, rfl⟩
    · exact ⟨afterNoon, rfl⟩
  have hle := h noonRuns hstamps noon lastStartedAt_noonRuns _ afterNoon_mem_noonRuns afterNoon rfl
  have hlt : noon.instant < afterNoon.instant := by
    refine Prod.Lex.toLex_lt_toLex.mpr (.inr ⟨rfl, (add_lt_add_iff_left _).mpr ?_⟩)
    exact fractionValue_pos_iff.mpr ⟨5, List.mem_cons_self, by decide⟩
  exact hlt.not_ge hle

end RuleFlow.Rollup
