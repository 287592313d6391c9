import DistLab.Systems.Ledger
import DistLab.Systems.Quorum

/-! # Agreement on chosen logs

Members adopt logs in terms. The winner of a term stands on a base log at least as
up to date as the logs its voters had adopted last, and the logs adopted in the term
continue the base with entries of the term. A log that ends with an entry of a term
and is adopted by half of the members in that term is a prefix of the base of every
later term, so any two chosen logs are prefixes of one another.
-/

namespace DistLab

variable {ι α : Type*} [Fintype ι]

def lastTerm (term : α → ℕ) (L : List α) : ℕ := (L.getLast?.map term).getD 0

/-- The first log is at least as up to date as the second. -/
def UpToDate (term : α → ℕ) (L L' : List α) : Prop :=
  lastTerm term L' < lastTerm term L ∨
    lastTerm term L' = lastTerm term L ∧ L'.length ≤ L.length

/-- The laws of a history in which members adopt logs and winners stand on base logs. -/
structure Chronicle (term : α → ℕ) (Ack : ι → ℕ → List α → Prop) (Base : ℕ → List α → Prop) :
    Prop where
  base_unique : ∀ T L L', Base T L → Base T L' → L = L'
  origin : ∀ v T L, Ack v T L → T = 0 ∧ (∀ e ∈ L, term e = 0) ∨
    ∃ L₀, Base T L₀ ∧ Grows term T L₀ L
  adopted : ∀ T L, Base T L → ∃ v T', T' < T ∧ Ack v T' L
  elected : ∀ T L, Base T L → ∃ Q : Finset ι, Majority Q ∧ ∀ v ∈ Q, ∃ L' T', UpToDate term L L' ∧
    T' < T ∧ Ack v T' L' ∧
      ∀ T₁ L₁, T₁ < T → Ack v T₁ L₁ → T₁ ≤ T' ∧ (T₁ = T' → L₁ <+: L')
  matching : ∀ v v' T T' L L' k e e', Ack v T L → Ack v' T' L' → L[k]? = some e →
    L'[k]? = some e' → term e = term e' → L.take (k + 1) = L'.take (k + 1)

/-- The log ends with an entry of the term and half of the members adopted it in the term. -/
structure Chosen (term : α → ℕ) (Ack : ι → ℕ → List α → Prop) (T : ℕ) (P : List α) : Prop where
  pos : T ≠ 0
  last : ∃ e, P.getLast? = some e ∧ term e = T
  quorum : ∃ H : Finset ι, Half H ∧ ∀ v ∈ H, ∃ L, Ack v T L ∧ P <+: L

theorem Chosen.mono {term : α → ℕ} {Ack Ack' : ι → ℕ → List α → Prop} {T : ℕ} {P : List α}
    (h : Chosen term Ack T P) (ha : ∀ v L, Ack v T L → Ack' v T L) : Chosen term Ack' T P := by
  obtain ⟨H, hH, hacks⟩ := h.quorum
  refine ⟨h.pos, h.last, H, hH, fun v hv => ?_⟩
  obtain ⟨L, hL, hp⟩ := hacks v hv
  exact ⟨L, ha v L hL, hp⟩

namespace Chronicle

variable {term : α → ℕ} {Ack : ι → ℕ → List α → Prop} {Base : ℕ → List α → Prop}
  {v v' : ι} {T T' k k' : ℕ} {L L' P P' : List α} {e e' : α}

theorem term_le (h : Chronicle term Ack Base) (ha : Ack v T L) (he : e ∈ L) : term e ≤ T := by
  induction T using Nat.strong_induction_on generalizing v L with
  | _ T ih =>
    rcases h.origin v T L ha with ⟨-, h0⟩ | ⟨L₀, hb, S, rfl, hS⟩
    · exact (h0 e he).trans_le (Nat.zero_le _)
    · rcases List.mem_append.mp he with he | he
      · obtain ⟨u, T', hlt, hu⟩ := h.adopted T L₀ hb
        exact (ih T' hlt hu he).trans hlt.le
      · exact (hS e he).le

theorem lastTerm_concat (L : List α) (e : α) : lastTerm term (L ++ [e]) = term e := by
  simp [lastTerm]

theorem term_le_lastTerm (h : Chronicle term Ack Base) (ha : Ack v T L) (he : e ∈ L) :
    term e ≤ lastTerm term L := by
  induction T using Nat.strong_induction_on generalizing v L with
  | _ T ih =>
    rcases h.origin v T L ha with ⟨-, h0⟩ | ⟨L₀, hb, S, rfl, hS⟩
    · exact (h0 e he).trans_le (Nat.zero_le _)
    · rcases List.eq_nil_or_concat S with rfl | ⟨S', a, rfl⟩
      · obtain ⟨u, T', hlt, hu⟩ := h.adopted T L₀ hb
        rw [List.append_nil] at he ⊢
        exact ih T' hlt hu he
      · have hle := h.term_le ha he
        have ha : term a = T := hS a (by simp)
        rw [List.concat_eq_append, ← List.append_assoc, lastTerm_concat, ha]
        exact hle

theorem entry_origin (h : Chronicle term Ack Base) (ha : Ack v T L) (he : L[k]? = some e)
    (h0 : term e ≠ 0) :
    ∃ L₀, Base (term e) L₀ ∧ L₀.length ≤ k ∧ Grows term (term e) L₀ (L.take (k + 1)) := by
  induction T using Nat.strong_induction_on generalizing v L with
  | _ T ih =>
    rcases h.origin v T L ha with ⟨-, hz⟩ | ⟨L₀, hb, hg⟩
    · exact (h0 (hz e (List.mem_of_getElem? he))).elim
    rcases lt_or_ge k L₀.length with hlt | hge
    · obtain ⟨u, T', hlt', hu⟩ := h.adopted T L₀ hb
      obtain ⟨S, rfl, -⟩ := hg
      rw [List.getElem?_append_left hlt] at he
      rw [List.take_append_of_le_length (by omega)]
      exact ih T' hlt' hu he
    · obtain rfl := hg.term_eq hge he
      exact ⟨L₀, hb, hge, hg.take (by omega)⟩

theorem take_eq (h : Chronicle term Ack Base) (ha : Ack v T L) (ha' : Ack v' T' L')
    (he : L[k]? = some e) (he' : L'[k']? = some e') (ht : term e = term e') (h0 : term e ≠ 0)
    (hk : k ≤ k') : L.take (k + 1) = L'.take (k + 1) := by
  obtain ⟨L₀, hb, hlen, -⟩ := h.entry_origin ha he h0
  obtain ⟨L₁, hb', -, hg⟩ := h.entry_origin ha' he' (ht ▸ h0)
  obtain rfl := h.base_unique _ _ _ hb (ht ▸ hb')
  obtain ⟨hlt, -⟩ := List.getElem?_eq_some_iff.mp he'
  have hat : L'[k]? = some L'[k] := List.getElem?_eq_getElem (by omega)
  refine h.matching v v' T T' L L' k e _ ha ha' he hat ?_
  rw [ht]
  refine (hg.term_eq hlen ?_).symm
  rw [List.getElem?_take_of_lt (by omega)]
  exact hat

theorem exists_last (hne : lastTerm term L ≠ 0) :
    ∃ e, L[L.length - 1]? = some e ∧ term e = lastTerm term L := by
  unfold lastTerm at hne ⊢
  rw [List.getLast?_eq_getElem?] at hne ⊢
  cases he : L[L.length - 1]? with
  | none => simp [he] at hne
  | some e => exact ⟨e, rfl, by simp⟩

/-- What is at least as up to date as a log with a chosen prefix has the prefix too, when the bases
of the terms in between have it. -/
theorem isPrefix_of_upToDate (h : Chronicle term Ack Base) (ha : Ack v T L) (ha' : Ack v' T' L')
    (hup : UpToDate term L' L) (hp : P <+: L) {t : ℕ} (ht : t ≠ 0) (hlast : t ≤ lastTerm term L)
    (hlater : ∀ t' L₀, t < t' → t' ≤ T' → Base t' L₀ → P <+: L₀) : P <+: L' := by
  have hle : lastTerm term L ≤ lastTerm term L' := by
    rcases hup with hlt | ⟨heq, -⟩ <;> omega
  obtain ⟨e', he', het'⟩ : ∃ e, L'[L'.length - 1]? = some e ∧ term e = lastTerm term L' :=
    exists_last (by omega)
  have hlen' : L'.take (L'.length - 1 + 1) = L' := List.take_of_length_le (by omega)
  obtain ⟨L₀, hb, -, hg⟩ := h.entry_origin ha' he' (by omega)
  rw [hlen'] at hg
  rcases (hlast.trans hle).lt_or_eq with hlt | heq
  · have hT' : term e' ≤ T' := h.term_le ha' (List.mem_of_getElem? he')
    exact (hlater _ L₀ (het' ▸ hlt) hT' hb).trans hg.isPrefix
  · have hlen : L.length ≤ L'.length := by
      rcases hup with hlt | ⟨-, hlen⟩ <;> omega
    obtain ⟨e, he, het⟩ : ∃ e, L[L.length - 1]? = some e ∧ term e = lastTerm term L :=
      exists_last (by omega)
    have htake := h.take_eq ha ha' he he' (by omega) (by omega) (by omega)
    rw [List.take_of_length_le (by omega)] at htake
    exact hp.trans (htake ▸ List.take_prefix _ _)

section SameTerm

variable [Nonempty ι]

theorem exists_ack (hc : Chosen term Ack T P) : ∃ v L e, Ack v T L ∧
    P <+: L ∧ L[P.length - 1]? = some e ∧ term e = T ∧ P.length ≠ 0 := by
  obtain ⟨H, hH, hacks⟩ := hc.quorum
  obtain ⟨v, hv⟩ := hH.nonempty
  obtain ⟨L, hL, S, rfl⟩ := hacks v hv
  obtain ⟨e, he, het⟩ := hc.last
  have hne : P.length ≠ 0 := by
    rintro h0
    simp [List.eq_nil_of_length_eq_zero h0] at he
  refine ⟨v, _, e, hL, List.prefix_append _ _, ?_, het, hne⟩
  rw [List.getElem?_append_left (by omega), ← List.getLast?_eq_getElem?, he]

theorem isPrefix_of_length_le (h : Chronicle term Ack Base) (hc : Chosen term Ack T P)
    (hc' : Chosen term Ack T P') (hlen : P.length ≤ P'.length) : P <+: P' := by
  obtain ⟨v, L, e, hL, hp, he, het, hne⟩ := exists_ack hc
  obtain ⟨v', L', e', hL', hp', he', het', hne'⟩ := exists_ack hc'
  have htake := h.take_eq hL hL' he he' (het.trans het'.symm) (het ▸ hc.pos) (by omega)
  rw [show P.length - 1 + 1 = P.length by omega, ← List.prefix_iff_eq_take.mp hp] at htake
  exact List.prefix_of_prefix_length_le (htake ▸ List.take_prefix _ _) hp' hlen

end SameTerm

variable [DecidableEq ι]

/-- A chosen log is a prefix of the base of every later term. -/
theorem isPrefix_base (h : Chronicle term Ack Base) (hc : Chosen term Ack T P) (hT : T < T')
    (hb : Base T' L) : P <+: L := by
  induction T' using Nat.strong_induction_on generalizing L with
  | _ T' ih =>
    obtain ⟨Q, hQ, hvotes⟩ := h.elected T' L hb
    obtain ⟨H, hH, hacks⟩ := hc.quorum
    obtain ⟨v, hvQ, hvH⟩ := hQ.exists_mem_both hH
    obtain ⟨Lv, Tv, hup, hTv, hack, hlatest⟩ := hvotes v hvQ
    obtain ⟨R, hR, hPR⟩ := hacks v hvH
    obtain ⟨hle, heq⟩ := hlatest T R hT hR
    have hPv : P <+: Lv := by
      rcases hle.eq_or_lt with hT | hlt
      · exact hPR.trans (heq hT)
      · rcases h.origin v Tv Lv hack with ⟨h0, -⟩ | ⟨L₀, hb₀, hg⟩
        · omega
        · exact (ih Tv hTv hlt hb₀).trans hg.isPrefix
    obtain ⟨e, he, het⟩ := hc.last
    have hlast : T ≤ lastTerm term Lv :=
      het ▸ h.term_le_lastTerm hack (hPv.subset (List.mem_of_getLast? he))
    obtain ⟨u, Tu, hTu, hu⟩ := h.adopted T' L hb
    exact h.isPrefix_of_upToDate hack hu hup hPv hc.pos hlast
      fun t' L₀ hlt hle hb₀ => ih t' (hle.trans_lt hTu) hlt hb₀

variable [Nonempty ι]

theorem comparable_of_lt (h : Chronicle term Ack Base) (hc : Chosen term Ack T P)
    (hc' : Chosen term Ack T' P') (hT : T < T') : P <+: P' ∨ P' <+: P := by
  obtain ⟨H, hH, hacks⟩ := hc'.quorum
  obtain ⟨v, hv⟩ := hH.nonempty
  obtain ⟨L, hL, hP'⟩ := hacks v hv
  rcases h.origin v T' L hL with ⟨h0, -⟩ | ⟨L₀, hb, hg⟩
  · exact (hc'.pos h0).elim
  · exact List.prefix_or_prefix_of_prefix ((h.isPrefix_base hc hT hb).trans hg.isPrefix) hP'

/-- Any two chosen logs are prefixes of one another. -/
theorem comparable (h : Chronicle term Ack Base) (hc : Chosen term Ack T P)
    (hc' : Chosen term Ack T' P') : P <+: P' ∨ P' <+: P := by
  rcases lt_trichotomy T T' with hlt | rfl | hlt
  · exact h.comparable_of_lt hc hc' hlt
  · rcases le_total P.length P'.length with hle | hle
    · exact Or.inl (h.isPrefix_of_length_le hc hc' hle)
    · exact Or.inr (h.isPrefix_of_length_le hc' hc hle)
  · exact (h.comparable_of_lt hc' hc hlt).symm

end Chronicle

end DistLab
