import Mathlib

/-!
# Command lines

The words of a command line as options: letters that stand in clusters, and a letter with
an argument, which is the rest of its word or the word after it. The options end at the
first word that holds none.
-/

namespace CommandLine

variable {α : Type}

/-- Which words hold options, and whether a letter takes an argument. -/
structure Grammar (α : Type) where
  /-- The letters of a word that holds options. -/
  letters : List α → Option (List α)
  /-- The word that ends the options and is not an operand. -/
  marker : List α → Bool
  takes : α → Option Bool

inductive Item (α : Type)
  | flag (c : α)
  | argument (c : α) (arg : List α)

inductive Stop (α : Type)
  | operands
  | unknown (c : α)
  | missing (c : α)

/-- The options of a command line, and the words that are left. -/
structure Parsed (α : Type) where
  items : List (Item α)
  stop : Stop α
  rest : List (List α)

def Parsed.after (items : List (Item α)) (p : Parsed α) : Parsed α :=
  { p with items := items ++ p.items }

@[simp] theorem Parsed.after_nil (p : Parsed α) : p.after [] = p := rfl

theorem Parsed.after_append (items more : List (Item α)) (p : Parsed α) :
    p.after (items ++ more) = (p.after more).after items := by
  rw [after, after, after, List.append_assoc]

inductive ClusterEnd (α : Type)
  | whole
  | unknown (c : α)
  | wants (c : α)

/-- The rest of the word is the argument, if there is one. -/
def takeRest (c : α) : List α → List (Item α) × ClusterEnd α
  | [] => ([], .wants c)
  | b :: arg => ([.argument c (b :: arg)], .whole)

def cluster (g : Grammar α) : List α → List (Item α) × ClusterEnd α
  | [] => ([], .whole)
  | c :: cs =>
    match g.takes c with
    | none => ([], .unknown c)
    | some false => (.flag c :: (cluster g cs).1, (cluster g cs).2)
    | some true => takeRest c cs

def parse (g : Grammar α) : List (List α) → Parsed α
  | [] => ⟨[], .operands, []⟩
  | w :: ws =>
    match g.letters w with
    | none => ⟨[], .operands, if g.marker w then ws else w :: ws⟩
    | some cs =>
      match cluster g cs with
      | (items, .whole) => (parse g ws).after items
      | (items, .unknown c) => ⟨items, .unknown c, w :: ws⟩
      | (items, .wants c) =>
        match ws with
        | [] => ⟨items, .missing c, [w]⟩
        | arg :: ws => (parse g ws).after (items ++ [.argument c arg])

/-- The parse goes on in a word, of which these letters are left. -/
def resume (g : Grammar α) (w cs : List α) (ws : List (List α)) : Parsed α :=
  match cluster g cs with
  | (items, .whole) => (parse g ws).after items
  | (items, .unknown c) => ⟨items, .unknown c, w :: ws⟩
  | (items, .wants c) =>
    match ws with
    | [] => ⟨items, .missing c, [w]⟩
    | arg :: ws => (parse g ws).after (items ++ [.argument c arg])

section

variable {g : Grammar α} {w cs : List α} {ws : List (List α)} {c : α}

theorem parse_option (h : g.letters w = some cs) : parse g (w :: ws) = resume g w cs ws := by
  rw [parse, h]
  rfl

theorem parse_operand (h : g.letters w = none) :
    parse g (w :: ws) = ⟨[], .operands, if g.marker w then ws else w :: ws⟩ := by
  rw [parse, h]

theorem resume_nil (g : Grammar α) (w : List α) (ws : List (List α)) :
    resume g w [] ws = parse g ws := rfl

theorem resume_unknown (h : g.takes c = none) :
    resume g w (c :: cs) ws = ⟨[], .unknown c, w :: ws⟩ := by
  rw [resume, cluster, h]

theorem resume_flag (h : g.takes c = some false) :
    resume g w (c :: cs) ws = (resume g w cs ws).after [.flag c] := by
  rw [resume, resume, cluster, h]
  cases hcluster : cluster g cs with
  | mk items ending =>
    cases ending with
    | whole => rfl
    | unknown b => rfl
    | wants b =>
      cases ws with
      | nil => rfl
      | cons arg ws => rfl

theorem resume_attached (h : g.takes c = some true) (hcs : cs ≠ []) :
    resume g w (c :: cs) ws = (parse g ws).after [.argument c cs] := by
  cases cs with
  | nil => exact absurd rfl hcs
  | cons b arg =>
    rw [resume, cluster, h]
    rfl

theorem resume_separate (h : g.takes c = some true) (arg : List α) :
    resume g w [c] (arg :: ws) = (parse g ws).after [.argument c arg] := by
  rw [resume, cluster, h]
  rfl

theorem resume_missing (h : g.takes c = some true) :
    resume g w [c] [] = ⟨[], .missing c, [w]⟩ := by
  rw [resume, cluster, h]
  rfl

theorem resume_flags {flags : List α} (h : ∀ c ∈ flags, g.takes c = some false) :
    resume g w (flags ++ cs) ws = (resume g w cs ws).after (flags.map .flag) := by
  induction flags with
  | nil => rfl
  | cons c flags ih =>
    rw [List.cons_append, resume_flag (h c List.mem_cons_self),
      ih fun b hb => h b (List.mem_cons_of_mem c hb), List.map_cons,
      ← Parsed.after_append, List.singleton_append]

end

/-- Flags, and an option that they stand before, in the ways in which they can be written. -/
inductive Spelling (α : Type)
  | flags (cs : List α)
  | attached (cs : List α) (c : α) (arg : List α)
  | separate (cs : List α) (c : α) (arg : List α)

namespace Spelling

def letters : Spelling α → List α
  | .flags cs => cs
  | .attached cs c arg => cs ++ c :: arg
  | .separate cs c _ => cs ++ [c]

def following : Spelling α → List (List α)
  | .flags _ => []
  | .attached .. => []
  | .separate _ _ arg => [arg]

def items : Spelling α → List (Item α)
  | .flags cs => cs.map .flag
  | .attached cs c arg => cs.map .flag ++ [.argument c arg]
  | .separate cs c arg => cs.map .flag ++ [.argument c arg]

def Sorted (g : Grammar α) : Spelling α → Prop
  | .flags cs => ∀ c ∈ cs, g.takes c = some false
  | .attached cs c arg => (∀ c ∈ cs, g.takes c = some false) ∧ g.takes c = some true ∧ arg ≠ []
  | .separate cs c _ => (∀ c ∈ cs, g.takes c = some false) ∧ g.takes c = some true

structure Written (g : Grammar α) (s : Spelling α) (words : List (List α)) : Prop where
  sorted : s.Sorted g
  words : ∃ w, g.letters w = some s.letters ∧ words = w :: s.following

variable {g : Grammar α}

theorem resume_spelling {s : Spelling α} (h : s.Sorted g) (w : List α) (ws : List (List α)) :
    resume g w s.letters (s.following ++ ws) = (parse g ws).after s.items := by
  cases s with
  | flags cs =>
    have hflags : resume g w (cs ++ []) ws = (resume g w [] ws).after (cs.map .flag) :=
      resume_flags h
    rwa [List.append_nil, resume_nil] at hflags
  | attached cs c arg =>
    obtain ⟨hflags, htakes, harg⟩ := h
    rw [letters, resume_flags hflags, following, List.nil_append, resume_attached htakes harg,
      items, Parsed.after_append]
  | separate cs c arg =>
    obtain ⟨hflags, htakes⟩ := h
    rw [letters, resume_flags hflags, following, List.singleton_append, resume_separate htakes,
      items, Parsed.after_append]

theorem Written.parse {s : Spelling α} {words : List (List α)} (h : s.Written g words)
    (ws : List (List α)) : parse g (words ++ ws) = (CommandLine.parse g ws).after s.items := by
  obtain ⟨hsorted, w, hw, rfl⟩ := h
  rw [List.cons_append, parse_option hw, resume_spelling hsorted]

def withFlag (c : α) : Spelling α → Spelling α
  | .flags cs => .flags (c :: cs)
  | .attached cs b arg => .attached (c :: cs) b arg
  | .separate cs b arg => .separate (c :: cs) b arg

theorem withFlag_letters (c : α) (s : Spelling α) : (s.withFlag c).letters = c :: s.letters := by
  cases s <;> rfl

theorem withFlag_following (c : α) (s : Spelling α) : (s.withFlag c).following = s.following := by
  cases s <;> rfl

theorem withFlag_items (c : α) (s : Spelling α) : (s.withFlag c).items = .flag c :: s.items := by
  cases s <;> rfl

theorem Sorted.withFlag {s : Spelling α} (h : s.Sorted g) {c : α} (hc : g.takes c = some false) :
    (s.withFlag c).Sorted g := by
  cases s with
  | flags cs => exact List.forall_mem_cons.mpr ⟨hc, h⟩
  | attached cs b arg => exact ⟨List.forall_mem_cons.mpr ⟨hc, h.1⟩, h.2⟩
  | separate cs b arg => exact ⟨List.forall_mem_cons.mpr ⟨hc, h.1⟩, h.2⟩

theorem of_cluster_whole {cs : List α} {items : List (Item α)}
    (h : cluster g cs = (items, .whole)) :
    ∃ s : Spelling α, s.Sorted g ∧ s.letters = cs ∧ s.following = [] ∧ s.items = items := by
  induction cs generalizing items with
  | nil =>
    obtain ⟨rfl, -⟩ := Prod.mk.inj h
    exact ⟨.flags [], fun c hc => absurd hc List.not_mem_nil, rfl, rfl, rfl⟩
  | cons c cs ih =>
    rw [cluster] at h
    split at h
    · cases h
    · rename_i htakes
      obtain ⟨hitems, hend⟩ := Prod.mk.inj h
      obtain ⟨s, hsorted, hletters, hfollowing, hs⟩ := ih (Prod.ext rfl hend)
      refine ⟨s.withFlag c, hsorted.withFlag htakes, ?_, ?_, ?_⟩
      · rw [withFlag_letters, hletters]
      · rw [withFlag_following, hfollowing]
      · rw [withFlag_items, hs, hitems]
    · rename_i htakes
      cases cs with
      | nil => cases h
      | cons b arg =>
        obtain ⟨rfl, -⟩ := Prod.mk.inj h
        exact ⟨.attached [] c (b :: arg), ⟨fun c hc => absurd hc List.not_mem_nil, htakes,
          List.cons_ne_nil b arg⟩, rfl, rfl, rfl⟩

theorem of_cluster_wants {cs : List α} {items : List (Item α)} {c : α}
    (h : cluster g cs = (items, .wants c)) (arg : List α) :
    ∃ s : Spelling α, s.Sorted g ∧ s.letters = cs ∧ s.following = [arg] ∧
      s.items = items ++ [.argument c arg] := by
  induction cs generalizing items with
  | nil => cases h
  | cons b cs ih =>
    rw [cluster] at h
    split at h
    · cases h
    · rename_i htakes
      obtain ⟨hitems, hend⟩ := Prod.mk.inj h
      obtain ⟨s, hsorted, hletters, hfollowing, hs⟩ := ih (Prod.ext rfl hend)
      refine ⟨s.withFlag b, hsorted.withFlag htakes, ?_, ?_, ?_⟩
      · rw [withFlag_letters, hletters]
      · rw [withFlag_following, hfollowing]
      · rw [withFlag_items, hs, ← hitems, List.cons_append]
    · rename_i htakes
      cases cs with
      | nil =>
        obtain ⟨rfl, hwants⟩ := Prod.mk.inj h
        cases hwants
        exact ⟨.separate [] c arg, ⟨fun c hc => absurd hc List.not_mem_nil, htakes⟩, rfl, rfl, rfl⟩
      | cons a word => cases h

end Spelling

def Item.Known (g : Grammar α) : Item α → Prop
  | .flag c => g.takes c = some false
  | .argument c _ => g.takes c = some true

/-- Words that hold the options, one spelling after another. -/
inductive Spelled (g : Grammar α) : List (List α) → List (Item α) → Prop
  | nil : Spelled g [] []
  | cons {s : Spelling α} {words more : List (List α)} {items : List (Item α)}
      (hs : s.Written g words) (hmore : Spelled g more items) :
      Spelled g (words ++ more) (s.items ++ items)

/-- What may stand behind the options: operands, and the marker before them, which is
needed where they begin like an option. -/
inductive Follows (g : Grammar α) : List (List α) → List (List α) → Prop
  | nil : Follows g [] []
  | operands {w : List α} {ws : List (List α)} (hletters : g.letters w = none)
      (hmarker : g.marker w = false) : Follows g (w :: ws) (w :: ws)
  | marker {w : List α} {ws : List (List α)} (hletters : g.letters w = none)
      (hmarker : g.marker w = true) : Follows g (w :: ws) ws

variable {g : Grammar α}

theorem parse_spelled {words : List (List α)} {items : List (Item α)} (h : Spelled g words items)
    (ws : List (List α)) : parse g (words ++ ws) = (parse g ws).after items := by
  induction h with
  | nil => rfl
  | cons hs _ ih => rw [List.append_assoc, hs.parse, ih, Parsed.after_append]

theorem parse_follows {tail rest : List (List α)} (h : Follows g tail rest) :
    parse g tail = ⟨[], .operands, rest⟩ := by
  cases h with
  | nil => rfl
  | operands hletters hmarker => rw [parse_operand hletters, hmarker, if_neg Bool.false_ne_true]
  | marker hletters hmarker => rw [parse_operand hletters, hmarker, if_pos rfl]

theorem cluster_known {cs : List α} : ∀ item ∈ (cluster g cs).1, item.Known g := by
  induction cs with
  | nil => exact fun item h => absurd h List.not_mem_nil
  | cons c cs ih =>
    rw [cluster]
    split
    · exact fun item h => absurd h List.not_mem_nil
    · rename_i htakes
      exact List.forall_mem_cons.mpr ⟨htakes, ih⟩
    · rename_i htakes
      cases cs with
      | nil => exact fun item h => absurd h List.not_mem_nil
      | cons b arg => exact List.forall_mem_singleton.mpr htakes

theorem takes_of_wants {cs : List α} {c : α} (h : (cluster g cs).2 = .wants c) :
    g.takes c = some true := by
  induction cs with
  | nil => cases h
  | cons b cs ih =>
    rw [cluster] at h
    split at h
    · cases h
    · exact ih h
    · rename_i htakes
      cases cs with
      | nil =>
        cases h
        exact htakes
      | cons a arg => cases h

theorem parse_known (words : List (List α)) : ∀ item ∈ (parse g words).items, item.Known g := by
  have hcluster (cs : List α) (items : List (Item α)) (ending : ClusterEnd α)
      (h : cluster g cs = (items, ending)) : ∀ item ∈ items, item.Known g := by
    have hitems : (cluster g cs).1 = items := congrArg Prod.fst h
    rw [← hitems]
    exact cluster_known
  induction words using parse.induct g with
  | case1 => exact fun item h => absurd h List.not_mem_nil
  | case2 w ws hletters =>
    rw [parse_operand hletters]
    exact fun item h => absurd h List.not_mem_nil
  | case3 w ws cs hletters items hend ih =>
    rw [parse_option hletters, resume, hend]
    exact List.forall_mem_append.mpr ⟨hcluster cs items _ hend, ih⟩
  | case4 w ws cs hletters items c hend =>
    rw [parse_option hletters, resume, hend]
    exact hcluster cs items _ hend
  | case5 w cs hletters items c hend =>
    rw [parse_option hletters, resume, hend]
    exact hcluster cs items _ hend
  | case6 w cs hletters items c hend arg ws ih =>
    rw [parse_option hletters, resume, hend]
    have htakes : g.takes c = some true := takes_of_wants (congrArg Prod.snd hend)
    refine List.forall_mem_append.mpr ⟨?_, ih⟩
    exact List.forall_mem_append.mpr
      ⟨hcluster cs items _ hend, List.forall_mem_singleton.mpr htakes⟩

theorem cluster_argument {cs arg : List α} {c : α} (h : .argument c arg ∈ (cluster g cs).1) :
    arg ⊆ cs := by
  induction cs with
  | nil => exact absurd h List.not_mem_nil
  | cons b cs ih =>
    rw [cluster] at h
    split at h
    · exact absurd h List.not_mem_nil
    · rcases List.mem_cons.mp h with h | h
      · cases h
      · exact List.subset_cons_of_subset b (ih h)
    · cases cs with
      | nil => exact absurd h List.not_mem_nil
      | cons a word =>
        obtain ⟨-, rfl⟩ := Item.argument.inj (List.mem_singleton.mp h)
        exact List.subset_cons_self b (a :: word)

theorem parse_argument (hletters : ∀ w cs, g.letters w = some cs → cs ⊆ w) (words : List (List α))
    {c : α} {arg : List α} (h : .argument c arg ∈ (parse g words).items) :
    ∃ w ∈ words, arg ⊆ w := by
  -- an argument in the same word as its letter is a part of that word
  have hcluster (w cs : List α) (items : List (Item α)) (ending : ClusterEnd α)
      (hw : g.letters w = some cs) (hend : cluster g cs = (items, ending))
      (hmem : .argument c arg ∈ items) : arg ⊆ w := by
    have hcs : (cluster g cs).1 = items := congrArg Prod.fst hend
    exact List.Subset.trans (cluster_argument (hcs ▸ hmem)) (hletters w cs hw)
  induction words using parse.induct g with
  | case1 => exact absurd h List.not_mem_nil
  | case2 w ws hw =>
    rw [parse_operand hw] at h
    exact absurd h List.not_mem_nil
  | case3 w ws cs hw items hend ih =>
    rw [parse_option hw, resume, hend] at h
    rcases List.mem_append.mp h with h | h
    · exact ⟨w, List.mem_cons_self, hcluster w cs items _ hw hend h⟩
    · obtain ⟨w', hmem, hsub⟩ := ih h
      exact ⟨w', List.mem_cons_of_mem w hmem, hsub⟩
  | case4 w ws cs hw items b hend =>
    rw [parse_option hw, resume, hend] at h
    exact ⟨w, List.mem_cons_self, hcluster w cs items _ hw hend h⟩
  | case5 w cs hw items b hend =>
    rw [parse_option hw, resume, hend] at h
    exact ⟨w, List.mem_cons_self, hcluster w cs items _ hw hend h⟩
  | case6 w cs hw items b hend word ws ih =>
    rw [parse_option hw, resume, hend] at h
    rcases List.mem_append.mp h with h | h
    · rcases List.mem_append.mp h with h | h
      · exact ⟨w, List.mem_cons_self, hcluster w cs items _ hw hend h⟩
      · obtain ⟨-, rfl⟩ := Item.argument.inj (List.mem_singleton.mp h)
        exact ⟨arg, List.mem_cons_of_mem w List.mem_cons_self, fun _ hmem => hmem⟩
    · obtain ⟨w', hmem, hsub⟩ := ih h
      exact ⟨w', List.mem_cons_of_mem w (List.mem_cons_of_mem word hmem), hsub⟩

theorem spelled_of_parse (words : List (List α)) (h : (parse g words).stop = .operands) :
    ∃ options tail, words = options ++ tail ∧ Spelled g options (parse g words).items ∧
      Follows g tail (parse g words).rest := by
  induction words using parse.induct g with
  | case1 => exact ⟨[], [], rfl, .nil, .nil⟩
  | case2 w ws hletters =>
    rw [parse_operand hletters]
    refine ⟨[], w :: ws, rfl, .nil, ?_⟩
    cases hmarker : g.marker w with
    | true => exact .marker hletters hmarker
    | false => exact .operands hletters hmarker
  | case3 w ws cs hletters items hcluster ih =>
    have hparse : parse g (w :: ws) = (parse g ws).after items := by
      rw [parse_option hletters, resume, hcluster]
    rw [hparse] at h ⊢
    obtain ⟨options, tail, hws, hspelled, htail⟩ := ih h
    obtain ⟨s, hsorted, hcs, hfollowing, hitems⟩ := Spelling.of_cluster_whole hcluster
    refine ⟨w :: options, tail, by rw [hws, List.cons_append], ?_, htail⟩
    have hwritten : s.Written g [w] := ⟨hsorted, w, hcs ▸ hletters, by rw [hfollowing]⟩
    rw [Parsed.after, ← hitems]
    exact .cons hwritten hspelled
  -- an unknown letter or a missing argument does not stop at the operands
  | case4 w ws cs hletters items c hcluster =>
    rw [parse_option hletters, resume, hcluster] at h
    cases h
  | case5 w cs hletters items c hcluster =>
    rw [parse_option hletters, resume, hcluster] at h
    cases h
  | case6 w cs hletters items c hcluster arg ws ih =>
    have hparse : parse g (w :: arg :: ws) = (parse g ws).after (items ++ [.argument c arg]) := by
      rw [parse_option hletters, resume, hcluster]
    rw [hparse] at h ⊢
    obtain ⟨options, tail, hws, hspelled, htail⟩ := ih h
    obtain ⟨s, hsorted, hcs, hfollowing, hitems⟩ := Spelling.of_cluster_wants hcluster arg
    refine ⟨w :: arg :: options, tail, by rw [hws]; rfl, ?_, htail⟩
    have hwritten : s.Written g [w, arg] := ⟨hsorted, w, hcs ▸ hletters, by rw [hfollowing]⟩
    rw [Parsed.after, ← hitems]
    exact .cons hwritten hspelled

theorem parse_eq_iff (words rest : List (List α)) (items : List (Item α)) :
    parse g words = ⟨items, .operands, rest⟩ ↔
      ∃ options tail, words = options ++ tail ∧ Spelled g options items ∧ Follows g tail rest := by
  constructor
  · intro h
    have hparse := spelled_of_parse words (by rw [h])
    rwa [h] at hparse
  · rintro ⟨options, tail, rfl, hspelled, hfollows⟩
    rw [parse_spelled hspelled, parse_follows hfollows, Parsed.after, List.append_nil]

end CommandLine
