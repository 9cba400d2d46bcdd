import Mathlib.Data.List.Induction
import Mathlib.Data.List.Nodup

/-! # Lists with a key

Tables, blocks, exports and variables are lists in which a new member takes the place of the one with
its key, or goes to the end if there is none (`putBy`). So of members that are put in turn, the keys
stand where they came first (`map_putAllBy`), and the last member with a key is the one that is found
(`find?_putAllBy`). -/

namespace AtomicCss

/-! ## First occurrences -/

section FirstOccurrences

variable {α β : Type} [BEq α] [LawfulBEq α] [BEq β] [LawfulBEq β] {a : α} {l : List α}

theorem eraseDups_concat (l : List α) (a : α) :
    (l ++ [a]).eraseDups = if a ∈ l then l.eraseDups else l.eraseDups ++ [a] := by
  rw [List.eraseDups_append]
  by_cases ha : a ∈ l <;> simp [List.removeAll, ha]
  rfl

theorem nodup_eraseDups (l : List α) : l.eraseDups.Nodup := by
  induction l using List.reverseRecOn with
  | nil => exact List.nodup_nil
  | append_singleton l a ih =>
    rw [eraseDups_concat]
    split
    · exact ih
    · rename_i ha
      rw [← List.mem_eraseDups] at ha
      exact List.nodup_append.2 ⟨ih, List.nodup_singleton a, by
        rintro x hx y hy rfl
        exact ha (List.mem_singleton.1 hy ▸ hx)⟩

theorem eraseDups_of_nodup (h : l.Nodup) : l.eraseDups = l := by
  induction l using List.reverseRecOn with
  | nil => rfl
  | append_singleton l a ih =>
    obtain ⟨hl, -, hne⟩ := List.nodup_append.1 h
    rw [eraseDups_concat, ih hl, if_neg]
    intro ha
    exact hne a ha a List.mem_cons_self rfl

/-- Lists that belong to different members have nothing in common, so the first occurrences in all of
them are those in the lists of the first occurrences. -/
theorem eraseDups_flatMap {f : α → List β} (h : ∀ a a' b, b ∈ f a → b ∈ f a' → a = a') (l : List α) :
    (l.flatMap f).eraseDups = l.eraseDups.flatMap fun a => (f a).eraseDups := by
  induction l using List.reverseRecOn with
  | nil => rfl
  | append_singleton l a ih =>
    rw [List.flatMap_append, List.flatMap_singleton, List.eraseDups_append, ih, eraseDups_concat]
    split
    · rename_i ha
      have hnone : (f a).removeAll (l.flatMap f) = [] := by
        rw [List.removeAll, List.filter_eq_nil_iff]
        intro b hb
        simpa using ⟨a, ha, hb⟩
      rw [hnone]
      exact List.append_nil _
    · rename_i ha
      have hall : (f a).removeAll (l.flatMap f) = f a := by
        rw [List.removeAll, List.filter_eq_self]
        intro b hb
        have hnot : b ∉ l.flatMap f := by
          intro hmem
          obtain ⟨a', ha', hb'⟩ := List.mem_flatMap.1 hmem
          exact ha (h a a' b hb hb' ▸ ha')
        simpa using hnot
      rw [hall, List.flatMap_append, List.flatMap_singleton]

end FirstOccurrences

/-! ## Putting -/

section Putting

variable {α κ : Type} [DecidableEq κ] {key : α → κ} {a : α} {bs : List α}

/-- Puts a member in the place of the first one with its key, or at the end. -/
def putBy (key : α → κ) (a : α) : List α → List α
  | [] => [a]
  | b :: bs => if key b = key a then a :: bs else b :: putBy key a bs

/-- Putting a member keeps the keys and their order; a new one stands at the end. -/
theorem map_putBy (key : α → κ) (a : α) (bs : List α) :
    (putBy key a bs).map key =
      if key a ∈ bs.map key then bs.map key else bs.map key ++ [key a] := by
  induction bs with
  | nil => rfl
  | cons b bs ih =>
    by_cases hb : key b = key a
    · simp [putBy, hb]
    · simp only [putBy, hb, if_false, List.map_cons, ih, List.mem_cons, Ne.symm hb, false_or]
      split <;> rfl

theorem find?_putBy (key : α → κ) (a : α) (bs : List α) (k : κ) :
    (putBy key a bs).find? (key · = k) = if k = key a then some a else bs.find? (key · = k) := by
  induction bs with
  | nil => by_cases hk : k = key a <;> simp [putBy, hk, eq_comm]
  | cons b bs ih =>
    unfold putBy
    by_cases hb : key b = key a
    · rw [if_pos hb, List.find?_cons, List.find?_cons, hb]
      by_cases hk : k = key a
      · simp [hk]
      · simp [hk, Ne.symm hk]
    · rw [if_neg hb, List.find?_cons, List.find?_cons, ih]
      by_cases hk : k = key a
      · simp [hk, hb]
      · simp [hk]

/-- The place of a member is the position of its key. -/
theorem putBy_eq (key : α → κ) (a : α) (bs : List α) :
    putBy key a bs = ((bs.map key).idxOf? (key a)).elim (bs ++ [a]) (bs.set · a) := by
  induction bs with
  | nil => rfl
  | cons b bs ih =>
    rw [putBy, List.map_cons, List.idxOf?_cons]
    by_cases hb : key b = key a
    · simp [hb]
    · rw [if_neg hb, if_neg (by simpa using hb), ih]
      cases (bs.map key).idxOf? (key a) <;> rfl

theorem find?_eq_idxOf? (key : α → κ) (bs : List α) (k : κ) :
    bs.find? (key · = k) = ((bs.map key).idxOf? k).bind (bs[·]?) := by
  rw [List.find?_eq_bind_findIdx?_getElem?, List.idxOf?, List.findIdx?_map]
  rfl

/-- Where no key stands twice, a member is found by its key. -/
theorem find?_of_nodup (h : (bs.map key).Nodup) (ha : a ∈ bs) :
    bs.find? (key · = key a) = some a := by
  have hsome : (bs.find? (key · = key a)).isSome := List.find?_isSome.2 ⟨a, ha, by simp⟩
  obtain ⟨b, hb⟩ := Option.isSome_iff_exists.1 hsome
  have hkey : key b = key a := by simpa using List.find?_some hb
  rw [hb, List.inj_on_of_nodup_map h (List.mem_of_find?_eq_some hb) ha hkey]

/-- Puts members in turn. -/
def putAllBy (key : α → κ) (as bs : List α) : List α :=
  as.foldl (fun bs a => putBy key a bs) bs

theorem putAllBy_concat (key : α → κ) (as : List α) (a : α) (bs : List α) :
    putAllBy key (as ++ [a]) bs = putBy key a (putAllBy key as bs) := List.foldl_concat ..

/-- The keys stand where they came first. -/
theorem map_putAllBy (key : α → κ) (as : List α) :
    (putAllBy key as []).map key = (as.map key).eraseDups := by
  induction as using List.reverseRecOn with
  | nil => rfl
  | append_singleton as a ih =>
    rw [putAllBy_concat, map_putBy, ih, List.map_append, List.map_singleton, eraseDups_concat]
    simp only [List.mem_eraseDups]

/-- The last member with a key is found. -/
theorem find?_putAllBy (key : α → κ) (as : List α) (k : κ) :
    (putAllBy key as []).find? (key · = k) = (as.filter (key · = k)).getLast? := by
  induction as using List.reverseRecOn with
  | nil => rfl
  | append_singleton as a ih =>
    rw [putAllBy_concat, find?_putBy, ih, List.filter_append, List.getLast?_append]
    by_cases hk : k = key a
    · simp [hk]
    · simp [hk, Ne.symm hk]

end Putting

end AtomicCss
