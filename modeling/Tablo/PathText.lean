import Tablo.PathSandbox

/-! The text of real paths: trimming separators, and what it means that one path is below another. -/

namespace Tablo.Path

open Chunks List

section Trim

variable (p : Path) {q : Path}

def Trimmed : Prop := ∀ c, p.getLast? = some c → pathIsSep c = true → p = [c]

theorem trimReversed_spec : (∃ u, (∀ c ∈ u, pathIsSep c = true) ∧ p = u ++ trimReversed p) ∧
      (∀ c, (trimReversed p).head? = some c → pathIsSep c = true → trimReversed p = [c]) ∧
      (p ≠ [] → trimReversed p ≠ []) := by
  fun_induction trimReversed p with
  | case1 => exact ⟨⟨[], by simp, rfl⟩, by simp, fun h => h⟩
  | case2 c =>
    refine ⟨⟨[], by simp, rfl⟩, fun d hd _ => ?_, by simp⟩
    rw [Option.some.inj hd]
  | case3 c d rest hc ih =>
    obtain ⟨⟨u, hu, heq⟩, hlast, hne⟩ := ih
    refine ⟨⟨c :: u, ?_, congrArg (c :: ·) heq⟩, hlast, fun _ => hne (by simp)⟩
    intro x hx
    rcases mem_cons.mp hx with rfl | hx
    · exact hc
    · exact hu x hx
  | case4 c d rest hc =>
    refine ⟨⟨[], by simp, rfl⟩, fun x hx hsep => ?_, by simp⟩
    rw [← Option.some.inj hx] at hsep
    exact absurd hsep hc

theorem trim_append : ∃ u, (∀ c ∈ u, pathIsSep c = true) ∧ p = pathTrimTrailingSeps p ++ u := by
  obtain ⟨u, hu, heq⟩ := (trimReversed_spec p.reverse).1
  refine ⟨u.reverse, fun c hc => hu c (mem_reverse.mp hc), ?_⟩
  rw [pathTrimTrailingSeps, ← reverse_append, ← heq, reverse_reverse]

theorem trim_trimmed : Trimmed (pathTrimTrailingSeps p) := by
  intro c hc hsep
  rw [pathTrimTrailingSeps, getLast?_reverse] at hc
  rw [pathTrimTrailingSeps, (trimReversed_spec p.reverse).2.1 c hc hsep]
  rfl

theorem trim_ne_nil {p : Path} (h : p ≠ []) : pathTrimTrailingSeps p ≠ [] := by
  have hne := (trimReversed_spec p.reverse).2.2 (by simpa using h)
  simpa [pathTrimTrailingSeps] using hne

variable {path root u : Path}

theorem trimReversed_append (hu : ∀ c ∈ u, pathIsSep c = true) (hq : q ≠ []) :
    trimReversed (u ++ q) = trimReversed q := by
  induction u with
  | nil => rfl
  | cons c u ih =>
    have htail := ih fun x hx => hu x (mem_cons_of_mem c hx)
    obtain ⟨d, rest, hd⟩ : ∃ d rest, u ++ q = d :: rest := exists_cons_of_ne_nil (by simp [hq])
    rw [cons_append, hd, trimReversed, if_pos (hu c mem_cons_self), ← hd, htail]

theorem trim_of_append (hq : Trimmed q) (hne : q ≠ []) (hu : ∀ c ∈ u, pathIsSep c = true) :
    pathTrimTrailingSeps (q ++ u) = q := by
  have hrev : trimReversed q.reverse = q.reverse := by
    cases hr : q.reverse with
    | nil => rfl
    | cons c rest =>
      cases rest with
      | nil => rfl
      | cons d rest =>
        rw [trimReversed, if_neg]
        intro hsep
        have hlast : q.getLast? = some c := by rw [← head?_reverse, hr]; rfl
        have hlen := congrArg List.length (hq c hlast hsep)
        have hlen' := congrArg List.length hr
        simp at hlen hlen'
        omega
  rw [pathTrimTrailingSeps, reverse_append,
    trimReversed_append (fun c hc => hu c (mem_reverse.mp hc)) (by simpa using hne), hrev,
    reverse_reverse]

theorem trim_eq_self (hq : Trimmed q) : pathTrimTrailingSeps q = q := by
  by_cases hne : q = []
  · rw [hne]
    rfl
  · have h := trim_of_append (u := []) hq hne (by simp)
    rwa [append_nil] at h

end Trim

theorem startsWithRoot_iff : startsWithRoot path root = true ↔
      path = root ∨ ∃ c rest, pathIsSep c = true ∧ path = root ++ c :: rest := by
  induction root generalizing path with
  | nil =>
    cases path with
    | nil | cons c rest => simp [startsWithRoot]
  | cons b root ih =>
    cases path with
    | nil => simp [startsWithRoot]
    | cons a path =>
      rw [startsWithRoot, Bool.and_eq_true, ih, beq_iff_eq]
      constructor
      · rintro ⟨rfl, hpath | ⟨c, rest, hc, hpath⟩⟩
        · exact .inl (by rw [hpath])
        · exact .inr ⟨c, rest, hc, by rw [hpath]; rfl⟩
      · rintro (h | ⟨c, rest, hc, h⟩)
        · obtain ⟨rfl, rfl⟩ := List.cons.inj h
          exact ⟨rfl, .inl rfl⟩
        · obtain ⟨rfl, hpath⟩ := List.cons.inj h
          exact ⟨rfl, .inr ⟨c, rest, hc, hpath⟩⟩

theorem pathPrefixMatches_iff (hroot : root ≠ []) : pathPrefixMatches path root = true ↔
      path = root ∨ ∃ c rest, pathIsSep c = true ∧ path = root ++ c :: rest := by
  rw [pathPrefixMatches, Bool.and_eq_true, startsWithRoot_iff]
  simp [hroot]

theorem pathIsSep_iff {c : Char} : pathIsSep c = true ↔ c = '/' ∨ c = '\\' := by
  simp [pathIsSep]

def Rendered (p : Path) : Prop := ∃ cs, Proper '/' cs ∧ p = render cs

variable {p : Path} {cs : List Path}

theorem IsReal.rendered (h : IsReal p) : Rendered p := by
  obtain ⟨cs, hcs, -, rfl⟩ := h
  exact ⟨cs, hcs, rfl⟩

theorem render_nil : render [] = ['/'] := rfl

theorem render_of_ne (h : cs ≠ []) : render cs = spell '/' cs := by
  rw [render, if_neg (by simpa using h)]

theorem components_render (h : Proper '/' cs) : components (render cs) = cs := by
  by_cases hcs : cs = []
  · subst hcs
    rfl
  · rw [render_of_ne hcs]
    exact cut_spell h

theorem Rendered.ne_nil (h : Rendered p) : p ≠ [] := by
  obtain ⟨cs, -, rfl⟩ := h
  by_cases hcs : cs = []
  · simp [hcs, render]
  · rw [render_of_ne hcs]
    exact fun hnil => hcs (spell_eq_nil.mp hnil)

theorem Rendered.head (h : Rendered p) : ∃ rest, p = '/' :: rest := by
  obtain ⟨c, rest, hp⟩ := exists_cons_of_ne_nil h.ne_nil
  obtain ⟨cs, -, rfl⟩ := h
  refine ⟨rest, ?_⟩
  by_cases hcs : cs = []
  · subst hcs
    rw [render_nil] at hp ⊢
    rw [← (List.cons.inj hp).2]
  · rw [render_of_ne hcs] at hp ⊢
    rw [hp, head_spell hp]

theorem spell_of_isPrefix (hcs : Proper '/' cs) {q : Path} (hq : q <+: spell '/' cs)
    (hne : q ≠ []) (hlast : q.getLast? ≠ some '/') : ∃ ds, Proper '/' ds ∧ ds ≠ [] ∧ q = spell '/' ds := by
  induction cs generalizing q with
  | nil => exact absurd (prefix_nil.mp hq) hne
  | cons c cs ih =>
    obtain ⟨hc, hcne⟩ := hcs c mem_cons_self
    obtain ⟨x, q, rfl⟩ := exists_cons_of_ne_nil hne
    obtain ⟨rfl, hqc⟩ := cons_prefix_cons.mp hq
    have hqne : q ≠ [] := by
      rintro rfl
      exact hlast rfl
    have hlast' : q.getLast? ≠ some '/' := by
      rwa [getLast?_cons_of_ne_nil hqne] at hlast
    have hsingle : ∀ {d : Path}, d ≠ [] → (∀ y ∈ d, y ∈ c) → Proper '/' [d] := by
      intro d hd hsub e he
      rw [mem_singleton.mp he]
      exact ⟨fun hslash => hc (hsub _ hslash), hd⟩
    obtain ⟨t, ht⟩ := hqc
    rcases append_eq_append_iff.mp ht with ⟨a, rfl, -⟩ | ⟨r, rfl, hr⟩
    · exact ⟨[q], hsingle hqne (by simp +contextual), by simp, by simp [spell]⟩
    · by_cases hrne : r = []
      · subst hrne
        refine ⟨[c], hsingle hcne fun _ hy => hy, by simp, by simp [spell]⟩
      · have hlast'' : r.getLast? ≠ some '/' := by
          rwa [getLast?_append_of_ne_nil _ hrne] at hlast'
        obtain ⟨ds, hds, -, rfl⟩ := ih hcs.tail ⟨t, hr.symm⟩ hrne hlast''
        refine ⟨c :: ds, ?_, by simp, by rw [spell_cons]⟩
        intro d hd
        rcases mem_cons.mp hd with rfl | hd
        · exact ⟨hc, hcne⟩
        · exact hds d hd

theorem Rendered.trim (h : Rendered p) : Rendered (pathTrimTrailingSeps p) := by
  obtain ⟨u, -, heq⟩ := trim_append p
  have htrimmed := trim_trimmed p
  have hne := trim_ne_nil h.ne_nil
  obtain ⟨rest, hhead⟩ := h.head
  generalize pathTrimTrailingSeps p = q at *
  obtain ⟨cs, hcs, rfl⟩ := h
  obtain ⟨c, q', rfl⟩ := exists_cons_of_ne_nil hne
  have hc : c = '/' := by
    rw [hhead] at heq
    exact (List.cons.inj heq).1.symm
  by_cases hlast : (c :: q').getLast? = some '/'
  · rw [htrimmed '/' hlast rfl]
    exact ⟨[], by simp [Proper], rfl⟩
  · by_cases hcs' : cs = []
    · subst hcs'
      rw [render_nil] at heq
      have hq' : q' = [] := by
        rw [cons_append, List.cons.injEq] at heq
        exact (append_eq_nil_iff.mp heq.2.symm).1
      subst hq' hc
      exact absurd rfl hlast
    · rw [render_of_ne hcs'] at heq
      obtain ⟨ds, hds, hdne, hspell⟩ := spell_of_isPrefix hcs ⟨u, heq.symm⟩ hne hlast
      exact ⟨ds, hds, by rw [hspell, render_of_ne hdne]⟩

theorem components_isPrefix_iff {r : Path} (hr : Rendered r) (hp : Rendered p) :
    components r <+: components p ↔ r = ['/'] ∨ p = r ∨ ∃ rest, p = r ++ '/' :: rest := by
  obtain ⟨cs, hcs, rfl⟩ := hr
  obtain ⟨ds, hds, rfl⟩ := hp
  rw [components_render hcs, components_render hds]
  by_cases hcs' : cs = []
  · subst hcs'
    simp [render_nil]
  · have hslash : render cs ≠ ['/'] := by
      intro h
      have hc := components_render hcs
      rw [h] at hc
      exact hcs' hc.symm
    by_cases hds' : ds = []
    · subst hds'
      have hne := (show Rendered (render cs) from ⟨cs, hcs, rfl⟩).ne_nil
      constructor
      · intro h
        exact absurd (prefix_nil.mp h) hcs'
      · rintro (h | h | ⟨rest, h⟩)
        · exact absurd h hslash
        · exact absurd h.symm hslash
        · have hlen := congrArg List.length h
          have hpos := length_pos_iff.mpr hne
          simp [render_nil] at hlen
          omega
    · rw [isPrefix_iff hcs hds, render_of_ne hds', render_of_ne hcs']
      rw [render_of_ne hcs'] at hslash
      simp [hslash]

end Tablo.Path
