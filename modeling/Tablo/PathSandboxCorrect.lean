import Tablo.PathText

/-! Which paths the sandbox lets through, against the component lists of the real paths. -/

namespace Tablo.Path

open Chunks List Option

variable (fs : FileSystem) {p q r s : Path}

def lexicalWalk (user : Path) : Option (List Path) :=
  if pathIsAbsolute user then none else (walkSegments [] (cut pathIsSep user)).toOption

def targetPath (root : Path) (segs : List Path) : Path :=
  if segs.isEmpty then root
  else (root.reverse.dropWhile (· == '/')).reverse ++ '/' :: ['/'].intercalate segs

/-- Every path that is returned is below the real root, and every target inside it is accepted. -/
def Contains (root user : Path) (allowMissingLeaf : Bool) : Prop :=
  (∀ p, pathSandboxResolve fs root user allowMissingLeaf = .ok p →
    ∃ r, pathCanonicalExisting fs root = some r ∧ components r <+: components p) ∧
  ∀ segs r t, lexicalWalk user = some segs → pathCanonicalExisting fs root = some r →
    pathCanonicalExisting fs (targetPath root segs) = some t → components r <+: components t →
    ∃ p, pathSandboxResolve fs root user allowMissingLeaf = .ok p

/-- The real path that is compared with the root: of the target or, if it is missing, of its
directory. -/
def located (root user : Path) (allowMissingLeaf : Bool) : Option Path :=
  match pathSandboxJoin root user with
  | .error _ => none
  | .ok joined =>
    match pathCanonicalExisting fs joined with
    | some target => some target
    | none =>
      if !allowMissingLeaf || (pathLeaf joined).isEmpty then none
      else pathCanonicalExisting fs (pathDirname joined)

def Accepted (r s : Path) : Prop :=
  pathPrefixMatches (pathTrimTrailingSeps s) (pathTrimTrailingSeps r) = true

/-- The root's real path does not end in a backslash and is not followed by one in `s`, or `s`
continues it with a slash. -/
def FollowsRoot (r s : Path) : Prop :=
  (pathTrimTrailingSeps r = r ∧ (r = ['/'] ∨ s[r.length]? ≠ some '\\')) ∨ ∃ rest, s = r ++ '/' :: rest

/-- No backslash is taken for a separator of real paths, the walk does not end at the root, and the
root is not `/`. -/
structure Unambiguous (root user : Path) (allowMissingLeaf : Bool) : Prop where
  followed : ∀ r s, pathCanonicalExisting fs root = some r →
    located fs root user allowMissingLeaf = some s → Accepted r s →
    FollowsRoot r (pathTrimTrailingSeps s)
  moves : pathCanonicalExisting fs root ≠ none → lexicalWalk user ≠ some []
  notSlash : ∀ segs r t, lexicalWalk user = some segs → segs ≠ [] →
    pathCanonicalExisting fs root = some r → pathCanonicalExisting fs (targetPath root segs) = some t →
    joinSegments root segs = targetPath root segs → r = ['/'] →
    pathTrimTrailingSeps t = ['/'] ∨ (pathTrimTrailingSeps t)[1]? = some '\\'
  sameTarget : ∀ segs r t, lexicalWalk user = some segs → segs ≠ [] →
    pathCanonicalExisting fs root = some r → pathCanonicalExisting fs (targetPath root segs) = some t →
    components r <+: components t → joinSegments root segs ≠ targetPath root segs →
    ∃ s, located fs root user allowMissingLeaf = some s ∧ Accepted r s

variable {fs} {root user : Path} {allowMissingLeaf : Bool}

theorem canonical_rendered (h : pathCanonicalExisting fs p = some q) : Rendered q := by
  unfold pathCanonicalExisting at h
  split_ifs at h
  exact (fs.isReal p q h).rendered

theorem canonical_ne_nil (h : pathCanonicalExisting fs p = some q) : p ≠ [] := by
  rintro rfl
  cases h

theorem pathLeaf_free (p : Path) : ∀ c ∈ pathLeaf p, pathIsSep c = false := by
  intro c hc
  rw [pathLeaf, splitLastSep] at hc
  cases hd : p.reverse.dropWhile (fun c => !pathIsSep c) with
  | nil =>
    rw [hd] at hc
    have hall := dropWhile_eq_nil_iff.mp hd c (by simpa using hc)
    simpa using hall
  | cons sep dir =>
    rw [hd] at hc
    have hmem := mem_takeWhile_imp (mem_reverse.mp hc)
    simpa using hmem

/-- What is returned for a located path: the path itself, or a name in it that is missing. -/
def Returned (s p : Path) : Prop :=
  p = pathTrimTrailingSeps s ∨ ∃ leaf, leaf ≠ [] ∧ (∀ c ∈ leaf, pathIsSep c = false) ∧
    p = appendLeaf (pathTrimTrailingSeps s) leaf

theorem resolve_ok (h : pathSandboxResolve fs root user allowMissingLeaf = .ok p) :
    ∃ r s, pathCanonicalExisting fs root = some r ∧ located fs root user allowMissingLeaf = some s ∧
      Accepted r s ∧ Returned s p := by
  unfold pathSandboxResolve at h
  unfold located
  cases hj : pathSandboxJoin root user with
  | error e => rw [hj] at h; cases h
  | ok joined =>
    simp only [hj, bind, Except.bind] at h ⊢
    cases hr : pathCanonicalExisting fs root with
    | none => rw [hr] at h; cases h
    | some r =>
      simp only [hr] at h
      cases ht : pathCanonicalExisting fs joined with
      | some t =>
        simp only [ht] at h
        split_ifs at h with ha
        exact ⟨r, t, rfl, rfl, ha, .inl (Except.ok.inj h).symm⟩
      | none =>
        simp only [ht] at h
        split_ifs at h with hallow hleaf
        have hguard : ¬((!allowMissingLeaf || (pathLeaf joined).isEmpty) = true) := by
          simpa using ⟨by simpa using hallow, by simpa using hleaf⟩
        rw [if_neg hguard]
        cases hs : pathCanonicalExisting fs (pathDirname joined) with
        | none => rw [hs] at h; cases h
        | some s =>
          simp only [hs] at h
          split_ifs at h with ha
          exact ⟨r, s, rfl, rfl, ha, .inr ⟨pathLeaf joined, by simpa using hleaf, pathLeaf_free joined,
            (Except.ok.inj h).symm⟩⟩

theorem resolve_isOk (hr : pathCanonicalExisting fs root = some r)
    (hs : located fs root user allowMissingLeaf = some s) (ha : Accepted r s) :
    ∃ p, pathSandboxResolve fs root user allowMissingLeaf = .ok p := by
  unfold located at hs
  unfold pathSandboxResolve
  cases hj : pathSandboxJoin root user with
  | error e => rw [hj] at hs; cases hs
  | ok joined =>
    simp only [hj] at hs
    simp only [bind, Except.bind, hr]
    cases ht : pathCanonicalExisting fs joined with
    | some t =>
      simp only [ht] at hs ⊢
      cases hs
      exact ⟨_, if_pos ha⟩
    | none =>
      simp only [ht] at hs ⊢
      split_ifs at hs with hguard
      simp only [Bool.or_eq_true, not_or] at hguard
      rw [if_neg (by simpa using hguard.1), if_neg hguard.2, hs]
      exact ⟨_, if_pos ha⟩

theorem join_of_walk {segs : List Path} (hroot : root ≠ []) (hw : lexicalWalk user = some segs)
    (hne : segs ≠ []) : pathSandboxJoin root user = .ok (joinSegments root segs) := by
  unfold lexicalWalk at hw
  split_ifs at hw with habs
  have huser : user ≠ [] := by
    rintro rfl
    exact hne (some.inj hw).symm
  have hwalk : walkSegments [] (cut pathIsSep user) = .ok segs := by
    cases hwalk : walkSegments [] (cut pathIsSep user) with
    | error e => rw [hwalk] at hw; cases hw
    | ok segs' => rw [hwalk] at hw; rw [some.inj hw]
  unfold pathSandboxJoin
  simp [hroot, huser, habs, hwalk, hne, bind, Except.bind, pure, Except.pure]

theorem join_error_of_walk (hw : lexicalWalk user = some []) : ∃ e, pathSandboxJoin root user = .error e := by
  unfold lexicalWalk at hw
  split_ifs at hw with habs
  cases hwalk : walkSegments [] (cut pathIsSep user) with
  | error e => rw [hwalk] at hw; cases hw
  | ok segs =>
    rw [hwalk] at hw
    cases hw
    unfold pathSandboxJoin
    by_cases hroot : root = []
    · exact ⟨_, by simp [hroot]; rfl⟩
    · by_cases huser : user = []
      · exact ⟨_, by simp [hroot, huser]; rfl⟩
      · exact ⟨_, by simp [hroot, huser, habs, hwalk, pure]; rfl⟩

theorem accepted_iff (hr : Rendered r) : Accepted r s ↔ pathTrimTrailingSeps s = pathTrimTrailingSeps r ∨
      ∃ c rest, pathIsSep c = true ∧ pathTrimTrailingSeps s = pathTrimTrailingSeps r ++ c :: rest :=
  pathPrefixMatches_iff (trim_ne_nil hr.ne_nil)

section

variable (hr : Rendered r) (hs : Rendered s)

include hr hs

theorem contained_iff (ha : Accepted r s) :
    components r <+: components (pathTrimTrailingSeps s) ↔ FollowsRoot r (pathTrimTrailingSeps s) := by
  rw [components_isPrefix_iff hr hs.trim]
  constructor
  · rintro (hslash | heq | hrest)
    · subst hslash
      exact .inl ⟨rfl, .inl rfl⟩
    · refine .inl ⟨?_, .inr ?_⟩
      · rw [← heq]
        exact trim_eq_self (trim_trimmed s)
      · rw [heq]
        simp
    · exact .inr hrest
  · rintro (⟨htrim, hnot⟩ | hrest)
    · rcases hnot with hslash | hnot
      · exact .inl hslash
      · rw [accepted_iff hr, htrim] at ha
        rcases ha with heq | ⟨c, rest, hc, heq⟩
        · exact .inr (.inl heq)
        · rcases pathIsSep_iff.mp hc with rfl | rfl
          · exact .inr (.inr ⟨rest, heq⟩)
          · rw [heq] at hnot
            simp at hnot
    · exact .inr (.inr hrest)

theorem contained_leaf_iff (ha : Accepted r s) {leaf : Path}
    (hne : leaf ≠ []) (hleaf : ∀ c ∈ leaf, pathIsSep c = false) :
    components r <+: components (appendLeaf (pathTrimTrailingSeps s) leaf) ↔
      components r <+: components (pathTrimTrailingSeps s) := by
  have htrimmed := trim_trimmed s
  obtain ⟨ss, hss, hrender⟩ := hs.trim
  have hslash : '/' ∉ leaf := by
    intro hmem
    have := hleaf '/' hmem
    simp [pathIsSep] at this
  have hproper : Proper '/' (ss ++ [leaf]) := by
    intro c hc
    rcases mem_append.mp hc with hold | hlast
    · exact hss c hold
    · rw [mem_singleton.mp hlast]
      exact ⟨hslash, hne⟩
  have happend : appendLeaf (pathTrimTrailingSeps s) leaf = render (ss ++ [leaf]) := by
    rw [render_of_ne (by simp)]
    by_cases hss' : ss = []
    · subst hss'
      rw [hrender, render_nil]
      simp [appendLeaf, hasSep, pathIsSep, spell]
    · rw [appendLeaf]
      have hsep : hasSep (pathTrimTrailingSeps s) = false := by
        rw [hasSep, Option.any_eq_false]
        intro c hc
        by_contra hsep
        have hsingle := htrimmed c hc (by simpa using hsep)
        rw [hrender] at hsingle
        obtain ⟨a, as, rfl⟩ := exists_cons_of_ne_nil hss'
        have hnil := (append_eq_nil_iff.mp (List.cons.inj hsingle).2).1
        exact (hss a mem_cons_self).2 hnil
      rw [hsep, hrender, render_of_ne hss']
      simp [spell]
  obtain ⟨rs, hrs, hrr⟩ := hr
  rw [happend, hrender, components_render hproper, components_render hss, hrr, components_render hrs]
  constructor
  · intro hpre
    rcases prefix_concat_iff.mp hpre with heq | hpre
    · have hrleaf : r = appendLeaf (pathTrimTrailingSeps s) leaf := by rw [hrr, heq, happend]
      have hrtrim : pathTrimTrailingSeps r = r := by
        refine trim_eq_self fun c hc hsep => ?_
        rw [hrleaf, appendLeaf, getLast?_append_of_ne_nil _ hne] at hc
        have hfree := hleaf c (mem_of_getLast? hc)
        rw [hsep] at hfree
        cases hfree
      have hlen : (pathTrimTrailingSeps s).length < r.length := by
        have hpos := length_pos_iff.mpr hne
        rw [hrleaf, appendLeaf]
        simp only [length_append]
        omega
      rw [accepted_iff ⟨rs, hrs, hrr⟩, hrtrim] at ha
      rcases ha with heq' | ⟨c, rest, -, heq'⟩
      · rw [heq'] at hlen
        omega
      · rw [heq'] at hlen
        simp only [length_append] at hlen
        omega
    · exact hpre
  · exact fun hpre => hpre.trans (prefix_append _ _)

theorem accepted_of_inside (h : components r <+: components s)
    (hslash : r ≠ ['/']) : Accepted r s := by
  rw [accepted_iff hr]
  rcases (components_isPrefix_iff hr hs).mp h with h | rfl | ⟨rest, hrest⟩
  · exact absurd h hslash
  · exact .inl rfl
  · obtain ⟨u, hu, hsu⟩ := trim_append s
    have htrimmed := trim_trimmed s
    have hne := trim_ne_nil hs.ne_nil
    generalize pathTrimTrailingSeps s = q at *
    rw [hrest] at hsu
    rcases append_eq_append_iff.mp hsu with ⟨a, hq, ha⟩ | ⟨a, hq, ha⟩
    · cases a with
      | nil =>
        rw [append_nil] at hq
        rw [hq] at htrimmed
        exact .inl (by rw [trim_eq_self htrimmed, hq])
      | cons x a =>
        obtain rfl : '/' = x := (List.cons.inj ha).1
        obtain ⟨v, hv, hrv⟩ := trim_append r
        refine .inr ?_
        cases v with
        | nil =>
          rw [append_nil] at hrv
          exact ⟨'/', a, rfl, by rw [hq, ← hrv]⟩
        | cons c v =>
          refine ⟨c, v ++ '/' :: a, hv c mem_cons_self, ?_⟩
          rw [hq]
          nth_rewrite 1 [hrv]
          simp
    · refine .inl ?_
      rw [hq, trim_of_append htrimmed hne fun c hc => hu c (by rw [ha]; exact mem_append_left _ hc)]

end

theorem accepted_slash (hs : Rendered s) :
    Accepted ['/'] s ↔ pathTrimTrailingSeps s = ['/'] ∨ (pathTrimTrailingSeps s)[1]? = some '\\' := by
  have hslash : Rendered ['/'] := ⟨[], by simp [Proper], rfl⟩
  have htrim : pathTrimTrailingSeps ['/'] = ['/'] := rfl
  rw [accepted_iff hslash]
  refine or_congr_right ?_
  constructor
  · rintro ⟨c, rest, hc, heq⟩
    rcases pathIsSep_iff.mp hc with rfl | rfl
    · obtain ⟨ss, hss, hrender⟩ := hs.trim
      rw [hrender] at heq
      cases ss with
      | nil => cases heq
      | cons a as =>
        obtain ⟨ha, hane⟩ := hss a mem_cons_self
        obtain ⟨x, a, rfl⟩ := exists_cons_of_ne_nil hane
        obtain rfl : x = '/' := by simpa using (List.cons.inj (List.cons.inj heq).2).1
        exact absurd mem_cons_self ha
    · rw [heq]
      rfl
  · intro hget
    obtain ⟨rest, hrest⟩ := hs.trim.head
    rw [hrest] at hget ⊢
    cases rest with
    | nil => cases hget
    | cons c rest =>
      obtain rfl : c = '\\' := by simpa using hget
      exact ⟨'\\', rest, rfl, rfl⟩

theorem located_of_target {segs : List Path} {t : Path} (hroot : root ≠ [])
    (hw : lexicalWalk user = some segs) (hne : segs ≠ [])
    (ht : pathCanonicalExisting fs (joinSegments root segs) = some t) :
    located fs root user allowMissingLeaf = some t := by
  rw [located, join_of_walk hroot hw hne]
  dsimp only
  rw [ht]

/-- The result of an accepted comparison is below the root exactly if the located path follows
it. -/
theorem result_contained_iff (hr : Rendered r) (hs : Rendered s) (ha : Accepted r s)
    (hp : Returned s p) : components r <+: components p ↔ FollowsRoot r (pathTrimTrailingSeps s) := by
  rcases hp with rfl | ⟨leaf, hne, hfree, rfl⟩
  · exact contained_iff hr hs ha
  · exact (contained_leaf_iff hr hs ha hne hfree).trans (contained_iff hr hs ha)

theorem located_rendered (hs : located fs root user allowMissingLeaf = some s) : Rendered s := by
  unfold located at hs
  split at hs
  · cases hs
  · split at hs
    · rename_i ht
      rw [← some.inj hs]
      exact canonical_rendered ht
    · split_ifs at hs
      exact canonical_rendered hs

/-- A directory `/srv/box` with a link to its sibling `/srv/box\evil`, and `/etc`. -/
def siblingFs : FileSystem where
  realpath p :=
    if p = "/srv/box".toList then some "/srv/box".toList
    else if p = "/srv/box/link".toList then some "/srv/box\\evil".toList
    else if p = "/".toList then some "/".toList
    else if p = "/etc".toList then some "/etc".toList
    else none
  isReal p q h := by
    split_ifs at h
    · exact ⟨["srv".toList, "box".toList], by unfold Proper; decide, by decide, (Option.some.inj h).symm⟩
    · exact ⟨["srv".toList, "box\\evil".toList], by unfold Proper; decide, by decide, (Option.some.inj h).symm⟩
    · exact ⟨[], by unfold Proper; decide, by decide, (Option.some.inj h).symm⟩
    · exact ⟨["etc".toList], by unfold Proper; decide, by decide, (Option.some.inj h).symm⟩

end Tablo.Path
