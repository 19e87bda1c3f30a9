import Mathlib.Data.List.Infix
import Scoping.Import

/-!
# Where requests lead

A request that starts with a separator is meant to stay under the import root, any other under the
directory of the unit. `Import.resolve_under` says where it leads: one separator is taken off, so
that what follows a second one is read from the root of the file system.
-/

namespace Scoping

namespace UnixPath

/-- All components of a path in a row: the root or a leading `.`, and the meaningful pieces. -/
def steps (p : UnixPath) : List (List Char) :=
  match p.components with
  | (.root, body) => ['/'] :: body
  | (.here, body) => ['.'] :: body
  | (.bare, body) => body

/-- The second path starts, component by component, with the first. -/
def Under (base p : UnixPath) : Prop := base.steps <+: p.steps

instance (base p : UnixPath) : Decidable (base.Under p) := inferInstanceAs (Decidable (_ <+: _))

/-! ### Pieces -/

theorem pieces_ne_nil (text : List Char) : pieces text ≠ [] := by
  cases text with
  | nil => exact List.cons_ne_nil _ _
  | cons c rest =>
    rw [pieces]
    split
    · exact List.cons_ne_nil _ _
    · split <;> exact List.cons_ne_nil _ _

/-- A separator ends a piece. -/
theorem pieces_append (rest : List Char) : ∀ text : List Char,
    pieces (text ++ '/' :: rest) = pieces text ++ pieces rest
  | [] => rfl
  | c :: text => by
    rw [List.cons_append, pieces, pieces, pieces_append rest text]
    split
    · rfl
    · cases hpieces : pieces text with
      | nil => exact absurd hpieces (pieces_ne_nil text)
      | cons piece more => rfl

/-- The meaningful pieces of a text. -/
def meaningful (text : List Char) : List (List Char) :=
  (pieces text).filter fun piece => !isIdle piece

theorem meaningful_append (text rest : List Char) :
    meaningful (text ++ '/' :: rest) = meaningful text ++ meaningful rest := by
  rw [meaningful, pieces_append, List.filter_append, meaningful, meaningful]

theorem filter_piecesOrNone (text : List Char) :
    (piecesOrNone text).filter (fun piece => !isIdle piece) = meaningful text := by
  cases text <;> rfl

/-! ### Components -/

variable {p q : UnixPath} {text rest : List Char}

theorem steps_root (h : p.text.toList = '/' :: rest) : p.steps = ['/'] :: meaningful rest := by
  simp only [steps, components, split, h, filter_piecesOrNone]

theorem steps_dot (h : p.text.toList = ['.']) : p.steps = [['.']] := by
  simp only [steps, components, split, h, List.filter_nil]

theorem steps_here (h : p.text.toList = '.' :: '/' :: rest) :
    p.steps = ['.'] :: meaningful rest := by
  simp only [steps, components, split, h, meaningful]

theorem steps_bare (h : p.text.toList = text) (hroot : ∀ rest, text ≠ '/' :: rest)
    (hdot : text ≠ ['.']) (hhere : ∀ rest, text ≠ '.' :: '/' :: rest) :
    p.steps = meaningful text := by
  simp only [steps, components, split, h, filter_piecesOrNone]

/-- What follows a separator adds its meaningful pieces. -/
theorem steps_append (htext : text ≠ []) (hp : p.text.toList = text)
    (hq : q.text.toList = text ++ '/' :: rest) : q.steps = p.steps ++ meaningful rest := by
  by_cases hroot : ∃ more, text = '/' :: more
  · obtain ⟨more, rfl⟩ := hroot
    rw [steps_root hp, steps_root hq]
    exact congrArg _ (meaningful_append more rest)
  by_cases hdot : text = ['.']
  · subst hdot
    rw [steps_dot hp, steps_here hq]
    rfl
  by_cases hhere : ∃ more, text = '.' :: '/' :: more
  · obtain ⟨more, rfl⟩ := hhere
    rw [steps_here hp, steps_here hq]
    exact congrArg _ (meaningful_append more rest)
  rw [not_exists] at hroot hhere
  obtain ⟨c, more, rfl⟩ := List.exists_cons_of_ne_nil htext
  rw [steps_bare hp hroot hdot hhere, steps_bare hq, meaningful_append]
  · exact fun _ h => hroot more (by injection h with hc; rw [hc])
  · simp
  · rintro rest' h
    injection h with hc hmore
    subst hc
    cases more with
    | nil => exact hdot rfl
    | cons d more =>
      injection hmore with hd
      exact hhere more (by rw [hd])

/-- A relative path is joined under its base, whatever is written after it. -/
theorem under_join {base part : UnixPath} (hpart : part.isAbsolute = false) (suffix : String) :
    base.Under ⟨(base.join part).text ++ suffix⟩ := by
  rw [join, if_neg (by simp [hpart]), Under]
  cases htext : base.text.toList using List.reverseRecOn with
  | nil =>
    have hnone : base.steps = [] := by simp [steps, components, split, htext, piecesOrNone]
    exact hnone ▸ List.nil_prefix
  | append_singleton text c =>
    by_cases hc : c = '/'
    · subst hc
      have hjoin : (base.text ++ part.text ++ suffix).toList =
          text ++ '/' :: (part.text ++ suffix).toList := by simp [htext]
      rw [if_pos (by simp)]
      cases text with
      | nil => exact steps_root htext ▸ steps_root hjoin ▸ ⟨_, rfl⟩
      | cons first more =>
        have hstem := String.toList_ofList (l := first :: more)
        rw [steps_append (List.cons_ne_nil _ _) hstem htext,
          steps_append (List.cons_ne_nil _ _) hstem hjoin]
        exact ⟨_, by rw [List.append_assoc]; rfl⟩
    · have hne : base.text ≠ "" := fun h => by simp [h] at htext
      rw [if_neg (by simp [hc, hne]),
        steps_append (q := ⟨base.text ++ "/" ++ part.text ++ suffix⟩) (by simpa using hne) rfl
          (show _ = base.text.toList ++ '/' :: (part.text ++ suffix).toList by simp)]
      exact List.prefix_append _ _

end UnixPath

namespace Import

/-- Separators are written in two ways. -/
def isSeparator (c : Char) : Bool := c == '/' || c == '\\'

/-- How many separators a request starts with. -/
def leading (raw : String) : Nat := (raw.toList.takeWhile isSeparator).length

theorem leading_eq (raw : String) :
    leading raw = ((normalize raw).takeWhile (· == '/')).length := by
  rw [normalize, List.takeWhile_map, List.length_map, leading]
  congr
  funext c
  by_cases hc : c = '\\' <;> simp [isSeparator, hc]

/-- A request without a leading separator leads under the directory of the unit, one with a single
separator under the import root, and one with more under the root of the file system. -/
theorem resolve_under (config : Config) (directory : UnixPath) (foreign : Bool) (raw : String) :
    (match leading raw with
      | 0 => directory
      | 1 => config.importRoot
      | _ => ⟨"/"⟩).Under (resolve config directory foreign raw) := by
  obtain ⟨suffix, hsuffix⟩ : ∃ suffix, resolve config directory foreign raw =
      ⟨(base config directory raw).text ++ suffix⟩ := by
    rw [resolve]
    split
    · exact ⟨"", by rw [String.append_empty]⟩
    · exact ⟨_, by rw [UnixPath.addExtension, String.append_assoc]⟩
  have hrelative : ∀ {text : List Char}, text.head? ≠ some '/' →
      UnixPath.isAbsolute ⟨String.ofList text⟩ = false := fun h => by
    simpa [UnixPath.isAbsolute] using h
  rw [hsuffix, leading_eq]
  by_cases hslash : (normalize raw).head? = some '/'
  · obtain ⟨rest, hraw⟩ := List.head?_eq_some_iff.mp hslash
    simp only [base, hraw]
    by_cases hrest : rest.head? = some '/'
    · obtain ⟨more, rfl⟩ := List.head?_eq_some_iff.mp hrest
      rw [UnixPath.join, if_pos (by simp [UnixPath.isAbsolute])]
      have hroot : (⟨String.ofList ('/' :: more) ++ suffix⟩ : UnixPath).steps =
          ['/'] :: UnixPath.meaningful (more ++ suffix.toList) := UnixPath.steps_root (by simp)
      rw [List.takeWhile_cons_of_pos rfl, List.takeWhile_cons_of_pos rfl]
      change (⟨"/"⟩ : UnixPath).steps <+: _
      exact hroot ▸ ⟨_, rfl⟩
    · have hone : ('/' :: rest).takeWhile (· == '/') = ['/'] := by cases rest <;> simp_all
      rw [hone]
      exact UnixPath.under_join (hrelative hrest) suffix
  · have hnone : (normalize raw).takeWhile (· == '/') = [] := by
      cases htext : normalize raw <;> simp_all
    have hbase : base config directory raw = directory.join ⟨String.ofList (normalize raw)⟩ := by
      rw [base]
      split
      next hraw => exact absurd (by rw [hraw]; rfl) hslash
      next => rfl
    rw [hnone, hbase]
    exact UnixPath.under_join (hrelative hslash) suffix

/-- A doubled separator leads out of the import root. -/
theorem not_under_doubled :
    ¬ (⟨"vendor"⟩ : UnixPath).Under
      (resolve { importRoot := ⟨"vendor"⟩ } ⟨"src"⟩ false "//core/io") := by
  decide

end Import

end Scoping
