import Mdao.Proofs.Layout

/-!
# Layouts that are built by pushes

A layout is built by appending variables one after the other, where a name that is taken is refused.
After any pushes it has the first push of each name (`Layout.accepted`), in order; each is found by its
name, and the span of each starts where the one before it ends (`Layout.follows_after`).

Ends are kept in words of 64 bits, so spans follow one another only up to multiples of 2⁶⁴. **As long as
the entries together can be counted, the spans tile the buffer and every index is located in the one
variable that holds it; as soon as they cannot, none of this is true any more**
(`Layout.tiled_after_tfae`): the variable at which the count starts again has a span that ends before it
starts, and the variables behind it are put over those in front.

The program keeps a layout in three tables, of names and spans by position and of positions by name,
which a push writes one after the other (`Layout.Tables`). They stay those of the layout and answer as
it does (`Layout.Tables.agrees_after`).
-/

namespace Mdao

namespace Layout

/-! ### Pushes -/

/-- A variable to append. -/
structure Push where
  /-- Its name. -/
  name : String
  /-- The number of its entries, in a word. -/
  size : UInt64
  deriving DecidableEq, Repr

/-- Appends a variable and answers its position; one that is refused changes nothing. -/
def append (c : Push) : StateM Layout (Option Nat) := fun l =>
  match l.push? c.name c.size.toNat with
  | some l' => (some l.length, l')
  | none => (none, l)

/-- The layout that pushes leave behind, those that were refused included. -/
def after (pushes : List Push) : Layout := pushes.foldl (fun l c => (append c l).2) empty

/-- The first push of each name. -/
def accepted : List Push → List Push
  | [] => []
  | c :: cs => c :: (accepted cs).filter fun d => d.name ≠ c.name

/-- The entries of pushes together. -/
def entries (cs : List Push) : Nat := (cs.map fun c => c.size.toNat).sum

/-- The variables of pushes, one after the other from `start`. -/
def laid (start : Nat) : List Push → List Field
  | [] => []
  | c :: cs =>
    ⟨c.name, ⟨start, Count.add start c.size.toNat⟩⟩ :: laid (Count.add start c.size.toNat) cs

section Accepted

variable {c : Push} {pushes : List Push}

theorem mem_names_accepted {name : String} :
    name ∈ (accepted pushes).map Push.name ↔ name ∈ pushes.map Push.name := by
  induction pushes with
  | nil => rfl
  | cons d ds ih =>
    simp only [accepted, List.map_cons, List.mem_cons]
    rw [← ih]
    refine or_congr_right' fun hne => ?_
    simp only [List.mem_map, List.mem_filter, decide_eq_true_eq]
    constructor
    · rintro ⟨e, ⟨he, -⟩, rfl⟩
      exact ⟨e, he, rfl⟩
    · rintro ⟨e, he, rfl⟩
      exact ⟨e, ⟨he, hne⟩, rfl⟩

theorem nodup_names_accepted (pushes : List Push) : ((accepted pushes).map Push.name).Nodup := by
  induction pushes with
  | nil => exact List.nodup_nil
  | cons d ds ih =>
    rw [accepted, List.map_cons, List.nodup_cons]
    refine ⟨fun hmem => ?_, ih.sublist (List.filter_sublist.map _)⟩
    obtain ⟨e, he, hname⟩ := List.mem_map.1 hmem
    have hne : e.name ≠ d.name := by simpa using (List.mem_filter.1 he).2
    exact hne hname

/-- A push of a new name comes last. -/
theorem accepted_of_notMem (h : c.name ∉ pushes.map Push.name) :
    accepted (pushes ++ [c]) = accepted pushes ++ [c] := by
  induction pushes with
  | nil => rfl
  | cons d ds ih =>
    rw [List.map_cons, List.mem_cons, not_or] at h
    have hkeep : [c].filter (fun e => e.name ≠ d.name) = [c] := by simp [h.1]
    rw [List.cons_append, accepted, accepted, ih h.2, List.filter_append, hkeep, List.cons_append]

/-- A push of a name that has been pushed before is not among the accepted ones. -/
theorem accepted_of_mem (h : c.name ∈ pushes.map Push.name) :
    accepted (pushes ++ [c]) = accepted pushes := by
  induction pushes with
  | nil => cases h
  | cons d ds ih =>
    rw [List.cons_append, accepted, accepted]
    by_cases hmem : c.name ∈ ds.map Push.name
    · rw [ih hmem]
    · have hname : c.name = d.name := (List.mem_cons.1 h).resolve_right hmem
      have hdrop : [c].filter (fun e => e.name ≠ d.name) = [] := by simp [hname]
      rw [accepted_of_notMem hmem, List.filter_append, hdrop, List.append_nil]

end Accepted

/-! ### Where the variables are put -/

section Laid

variable {start : Nat} {c : Push} {cs : List Push}

theorem entries_cons (c : Push) (cs : List Push) : entries (c :: cs) = c.size.toNat + entries cs :=
  List.sum_cons

@[simp] theorem map_name_laid (start : Nat) (cs : List Push) :
    (laid start cs).map Field.name = cs.map Push.name := by
  induction cs generalizing start with
  | nil => rfl
  | cons c cs ih => rw [laid, List.map_cons, List.map_cons, ih]

/-- One more variable is put where the others end. -/
theorem laid_concat (hstart : start < Count.modulus) (cs : List Push) (c : Push) :
    laid start (cs ++ [c]) = laid start cs ++ [⟨c.name, ⟨Count.add start (entries cs),
      Count.add start (entries (cs ++ [c]))⟩⟩] := by
  induction cs generalizing start with
  | nil =>
    have hzero : entries ([] : List Push) = 0 := rfl
    have hone : entries ([] ++ [c]) = c.size.toNat := Nat.add_zero _
    rw [hzero, hone, Count.add_zero_of_lt hstart]
    rfl
  | cons d ds ih =>
    rw [List.cons_append, laid, laid, ih (Count.add_lt _ _), Count.add_add, Count.add_add,
      entries_cons, entries_cons, List.cons_append]

/-- Where the variable at a position is put. -/
theorem span_laid (hstart : start < Count.modulus) {p : Nat} {f : Field}
    (h : (laid start cs)[p]? = some f) :
    f.span = ⟨Count.add start (entries (cs.take p)), Count.add start (entries (cs.take (p + 1)))⟩ := by
  induction cs generalizing start p with
  | nil => cases h
  | cons c cs ih =>
    rw [laid] at h
    cases p with
    | zero =>
      have hone : entries [c] = c.size.toNat := Nat.add_zero _
      rw [List.getElem?_cons_zero] at h
      obtain rfl := Option.some.inj h
      rw [List.take_zero, List.take_succ_cons, List.take_zero, hone]
      exact congrArg (Span.mk · _) (Count.add_zero_of_lt hstart).symm
    | succ p =>
      rw [List.getElem?_cons_succ] at h
      rw [ih (Count.add_lt _ _) h, Count.add_add, Count.add_add, List.take_succ_cons,
        List.take_succ_cons, entries_cons, entries_cons]

/-- The sizes of variables. -/
def sizes (fields : List Field) : List Nat := fields.map fun f => f.span.size

theorem sizes_laid_cons (start : Nat) (c : Push) (cs : List Push) :
    sizes (laid start (c :: cs)) =
      (Count.add start c.size.toNat - start) :: sizes (laid (Count.add start c.size.toNat) cs) := rfl

/-- Variables that can be counted tile the buffer. -/
theorem tile_laid (h : start + entries cs < Count.modulus) :
    Span.Tile start ((laid start cs).map Field.span) (start + entries cs) := by
  induction cs generalizing start with
  | nil => rfl
  | cons c cs ih =>
    rw [entries_cons, ← Nat.add_assoc] at h ⊢
    have hadd : Count.add start c.size.toNat = start + c.size.toNat := Count.add_of_lt (by omega)
    rw [laid, hadd, List.map_cons]
    exact ⟨rfl, Nat.le_add_right _ _, ih h⟩

/-- They have as many entries as was asked for. -/
theorem sizes_laid (h : start + entries cs < Count.modulus) :
    sizes (laid start cs) = cs.map fun c => c.size.toNat := by
  induction cs generalizing start with
  | nil => rfl
  | cons c cs ih =>
    rw [entries_cons, ← Nat.add_assoc] at h
    have hadd : Count.add start c.size.toNat = start + c.size.toNat := Count.add_of_lt (by omega)
    rw [sizes_laid_cons, hadd, Nat.add_sub_cancel_left, ih h, List.map_cons]

/-- Variables that have as many entries as was asked for can be counted: one at which the count starts
again has none. -/
theorem counted_of_sizes (hstart : start < Count.modulus)
    (h : sizes (laid start cs) = cs.map fun c => c.size.toNat) :
    start + entries cs < Count.modulus := by
  induction cs generalizing start with
  | nil => exact hstart
  | cons c cs ih =>
    rw [sizes_laid_cons, List.map_cons] at h
    obtain ⟨hhead, htail⟩ := List.cons.inj h
    have hrest := ih (Count.add_lt _ _) htail
    rw [entries_cons]
    rcases Count.add_cases hstart c.size.toNat_lt with ⟨-, hadd⟩ | ⟨hge, hadd⟩ <;> omega

/-- The end of the variables is reached by their sizes at the latest, -/
theorem add_entries_le (hstart : start < Count.modulus) (cs : List Push) :
    Count.add start (entries cs) ≤ start + (sizes (laid start cs)).sum := by
  induction cs generalizing start with
  | nil => exact (Count.add_zero_of_lt hstart).le
  | cons c cs ih =>
    have hrest := ih (Count.add_lt start c.size.toNat)
    rw [Count.add_add] at hrest
    rw [entries_cons, sizes_laid_cons, List.sum_cons]
    omega

/-- and if it takes all of them, the variables can be counted. -/
theorem counted_of_sum_le (hstart : start < Count.modulus)
    (h : start + (sizes (laid start cs)).sum ≤ Count.add start (entries cs)) :
    start + entries cs < Count.modulus := by
  induction cs generalizing start with
  | nil => exact hstart
  | cons c cs ih =>
    have hnext := Count.add_lt start c.size.toNat
    have hsize : c.size.toNat < Count.modulus := c.size.toNat_lt
    have hle := add_entries_le hnext cs
    rw [entries_cons, sizes_laid_cons, List.sum_cons, ← Count.add_add] at h
    rw [entries_cons]
    rcases Count.add_cases hstart hsize with ⟨-, hadd⟩ | ⟨hge, hadd⟩
    · have hrest := ih hnext (by omega)
      omega
    · -- the variable ends before it starts, and the others cannot make up for it
      omega

end Laid

/-! ### After any pushes -/

/-- **How a layout follows from pushes.** -/
structure Follows (pushes : List Push) (l : Layout) : Prop where
  /-- Its variables are those of the accepted pushes, in order, -/
  names : l.names = (accepted pushes).map Push.name
  /-- no two of a name. -/
  nodup : l.names.Nodup
  /-- Each is found by its name, -/
  found : ∀ p c, (accepted pushes)[p]? = some c →
    l.position? c.name = some p ∧ l.span? c.name = some (l.spanAt p)
  /-- and no other name is found. -/
  missing : ∀ name, name ∉ pushes.map Push.name → l.position? name = none ∧ l.span? name = none
  /-- In words, a variable starts behind the entries before it and ends behind its own, -/
  spans : ∀ p < l.length, l.spanAt p = ⟨entries ((accepted pushes).take p) % Count.modulus,
    entries ((accepted pushes).take (p + 1)) % Count.modulus⟩
  /-- and the buffer ends behind all of them. -/
  size : l.size = entries (accepted pushes) % Count.modulus
  /-- A name that has been pushed is refused, and nothing changes; -/
  refused : ∀ c : Push, c.name ∈ pushes.map Push.name → append c l = (none, l)
  /-- any other is accepted at the next position. -/
  next : ∀ c : Push, c.name ∉ pushes.map Push.name → (append c l).1 = some (accepted pushes).length

section After

variable {pushes : List Push} {c : Push}

theorem after_concat (pushes : List Push) (c : Push) :
    after (pushes ++ [c]) = (append c (after pushes)).2 := by
  simp [after]

theorem append_of_mem {l : Layout} (h : c.name ∈ l.names) : append c l = (none, l) := by
  simp only [append, push?_of_mem h]

theorem append_of_notMem {l : Layout} (h : c.name ∉ l.names) :
    append c l = (some l.length, ⟨l.fields.push ⟨c.name, ⟨l.size, Count.add l.size c.size.toNat⟩⟩,
      Count.add l.size c.size.toNat⟩) := by
  simp only [append, push?_of_notMem h]

theorem names_of_fields {l : Layout} {start : Nat} {cs : List Push}
    (h : l.fields.toList = laid start cs) : l.names = cs.map Push.name := by
  rw [names, h, map_name_laid]

/-- **A push takes the variables of the accepted pushes to those of one more.** -/
theorem fields_after (pushes : List Push) :
    (after pushes).fields.toList = laid 0 (accepted pushes) ∧
      (after pushes).size = Count.add 0 (entries (accepted pushes)) := by
  induction pushes using List.reverseRecOn with
  | nil => exact ⟨rfl, rfl⟩
  | append_singleton pushes c ih =>
    obtain ⟨hfields, hsize⟩ := ih
    have hnames := names_of_fields hfields
    rw [after_concat]
    by_cases h : c.name ∈ pushes.map Push.name
    · rw [append_of_mem (hnames ▸ mem_names_accepted.2 h), accepted_of_mem h]
      exact ⟨hfields, hsize⟩
    · have hend : Count.add (Count.add 0 (entries (accepted pushes))) c.size.toNat =
          Count.add 0 (entries (accepted pushes ++ [c])) := by
        rw [Count.add_add]
        simp [entries]
      rw [append_of_notMem (hnames ▸ mt mem_names_accepted.1 h), accepted_of_notMem h, hsize, hend]
      refine ⟨?_, rfl⟩
      rw [Array.toList_push, hfields, laid_concat (by decide)]

theorem length_after (pushes : List Push) : (after pushes).length = (accepted pushes).length := by
  rw [← length_names, names_of_fields (fields_after pushes).1, List.length_map]

theorem follows_after (pushes : List Push) : (after pushes).Follows pushes := by
  obtain ⟨hfields, hsize⟩ := fields_after pushes
  have hnames := names_of_fields hfields
  have hnodup : (after pushes).names.Nodup := hnames ▸ nodup_names_accepted pushes
  have hmem : ∀ name, name ∈ (after pushes).names ↔ name ∈ pushes.map Push.name := fun name => by
    rw [hnames, mem_names_accepted]
  refine ⟨hnames, hnodup, fun p c hp => ?_, fun name hname => ?_, fun p hp => ?_, ?_,
    fun c hc => append_of_mem ((hmem _).2 hc), fun c hc => ?_⟩
  · have hposition : (after pushes).position? c.name = some p :=
      position?_of_names hnodup (by rw [hnames, List.getElem?_map, hp, Option.map_some])
    exact ⟨hposition, by rw [span?, hposition, Option.map_some]⟩
  · have hposition := position?_eq_none.2 (mt (hmem name).1 hname)
    exact ⟨hposition, by rw [span?, hposition, Option.map_none]⟩
  · have hget : (laid 0 (accepted pushes))[p]? = some ((after pushes).fieldAt p) := by
      rw [← hfields, Array.getElem?_toList, getElem?_fields hp]
    have hspan := span_laid (by decide) hget
    rw [Count.add, Count.add, Nat.zero_add, Nat.zero_add] at hspan
    exact hspan
  · rw [hsize, Count.add, Nat.zero_add]
  · rw [append_of_notMem (mt (hmem _).1 hc), length_after]

end After

/-! ### In three tables -/

/-- A layout as it is kept: names and spans by position, and positions by name. -/
structure Tables where
  /-- The names in order. -/
  names : Array String
  /-- The spans in order. -/
  spans : Array Span
  /-- The positions by name. -/
  lookup : String → Option Nat
  /-- The length of the buffer. -/
  size : Nat

namespace Tables

/-- The tables of no variables. -/
def empty : Tables := ⟨#[], #[], fun _ => none, 0⟩

/-- Writes a variable to one table after the other, unless its name is taken. -/
def append (c : Push) : StateM Tables (Option Nat) := do
  if ((← get).lookup c.name).isSome then return none
  else
    let position := (← get).names.size
    modify fun t => { t with lookup := Function.update t.lookup c.name (some position) }
    modify fun t => { t with names := t.names.push c.name }
    modify fun t => { t with spans := t.spans.push ⟨t.size, Count.add t.size c.size.toNat⟩ }
    modify fun t => { t with size := Count.add t.size c.size.toNat }
    return some position

theorem get_bind {β : Type} (next : Tables → StateM Tables β) (t : Tables) :
    (get >>= next) t = next t t := rfl

theorem append_eq (c : Push) (t : Tables) :
    append c t = if (t.lookup c.name).isSome then (none, t)
      else (some t.names.size, ⟨t.names.push c.name,
        t.spans.push ⟨t.size, Count.add t.size c.size.toNat⟩,
        Function.update t.lookup c.name (some t.names.size), Count.add t.size c.size.toNat⟩) := by
  unfold append
  rw [get_bind]
  split_ifs <;> rfl

/-- The tables that pushes leave behind. -/
def after (pushes : List Push) : Tables := pushes.foldl (fun t c => (append c t).2) empty

/-- The span at a position. -/
def spanAt (t : Tables) (position : Nat) : Span := t.spans.getD position ⟨0, 0⟩

/-- The span of a variable, through its position. -/
def span? (t : Tables) (name : String) : Option Span := (t.lookup name).map t.spanAt

/-- The position of the variable that holds an index, and the offset in it. -/
def locate (t : Tables) (index : Nat) : Option (Nat × Nat) :=
  (t.spans.findIdx? fun s => s.contains index).map fun p => (p, index - (t.spanAt p).start)

/-- The tables of a layout. -/
structure Keeps (t : Tables) (l : Layout) : Prop where
  names : t.names = l.fields.map Field.name
  spans : t.spans = l.fields.map Field.span
  lookup : t.lookup = l.position?
  size : t.size = l.size

namespace Keeps

variable {t : Tables} {l : Layout} {c : Push}

theorem spanAt (h : t.Keeps l) : t.spanAt = l.spanAt := by
  funext p
  rw [Tables.spanAt, h.spans, Layout.spanAt, fieldAt, Array.getD_eq_getD_getElem?,
    Array.getD_eq_getD_getElem?, Array.getElem?_map]
  cases l.fields[p]? <;> rfl

theorem span? (h : t.Keeps l) : t.span? = l.span? := by
  funext name
  rw [Tables.span?, h.lookup, h.spanAt, Layout.span?]

theorem locate (h : t.Keeps l) : t.locate = l.locate := by
  funext k
  rw [Tables.locate, h.spans, h.spanAt, Layout.locate, Array.findIdx?_map]
  rfl

theorem empty : Tables.empty.Keeps .empty :=
  ⟨Array.map_empty.symm, Array.map_empty.symm,
    funext fun _ => (position?_eq_none.2 List.not_mem_nil).symm, rfl⟩

/-- A name that is taken is taken in the tables, which stay as they are. -/
theorem append_of_mem (h : t.Keeps l) (hc : c.name ∈ l.names) : Tables.append c t = (none, t) := by
  have htaken : (t.lookup c.name).isSome := by
    rw [h.lookup]
    exact position?_isSome.2 hc
  rw [append_eq, if_pos htaken]

/-- **A push writes the same variable to all tables.** -/
theorem append_of_notMem (h : t.Keeps l) (hc : c.name ∉ l.names) :
    (Tables.append c t).1 = some l.length ∧
      (Tables.append c t).2.Keeps (Layout.append c l).2 := by
  have hfree : l.position? c.name = none := position?_eq_none.2 hc
  have hlength : t.names.size = l.length := by
    rw [h.names, Array.size_map]
    rfl
  rw [append_eq, h.lookup, hfree, if_neg (by simp), Layout.append_of_notMem hc, hlength]
  refine ⟨rfl, ?_, ?_, ?_, ?_⟩
  · rw [h.names, Array.map_push]
  · rw [h.spans, h.size, Array.map_push]
  · refine Eq.symm (findIdx?_push_of_fresh Field.name ?_)
    exact hfree
  · rw [h.size]

end Keeps

theorem after_concat (pushes : List Push) (c : Push) :
    after (pushes ++ [c]) = (append c (after pushes)).2 := by
  simp [after]

/-- After any pushes, the tables are those of the layout. -/
theorem keeps_after (pushes : List Push) : (after pushes).Keeps (Layout.after pushes) := by
  induction pushes using List.reverseRecOn with
  | nil => exact .empty
  | append_singleton pushes c ih =>
    rw [after_concat, Layout.after_concat]
    by_cases hc : c.name ∈ (Layout.after pushes).names
    · rw [ih.append_of_mem hc, Layout.append_of_mem hc]
      exact ih
    · exact (ih.append_of_notMem hc).2

/-- **Tables that agree with a layout**, in what they hold and in what they answer. -/
structure Agrees (t : Tables) (l : Layout) : Prop where
  keeps : t.Keeps l
  span? : t.span? = l.span?
  locate : t.locate = l.locate
  /-- A push that is refused writes to no table. -/
  refused : ∀ c : Push, c.name ∈ l.names → append c t = (none, t)
  /-- Any other is answered as the layout answers it. -/
  next : ∀ c : Push, c.name ∉ l.names → (append c t).1 = (Layout.append c l).1

theorem agrees_after (pushes : List Push) : (after pushes).Agrees (Layout.after pushes) where
  keeps := keeps_after pushes
  span? := (keeps_after pushes).span?
  locate := (keeps_after pushes).locate
  refused _ hc := (keeps_after pushes).append_of_mem hc
  next _ hc := by rw [((keeps_after pushes).append_of_notMem hc).1, Layout.append_of_notMem hc]

end Tables

/-! ### Entries that can be counted -/

/-- **Variables tile the buffer, and locating undoes this, as long as the entries can be counted.**
Whatever is pushed, the variables are those of the accepted pushes, and the tables agree. If the entries
together are fewer than 2⁶⁴, the variables follow one another, they have the sizes that were asked for,
they part the buffer among them, and each index is located in the one that holds it; if they are not,
each of these fails. -/
theorem tiled_after_tfae (pushes : List Push) :
    (after pushes).Follows pushes ∧ (Tables.after pushes).Agrees (after pushes) ∧
    [entries (accepted pushes) < Count.modulus,
      (after pushes).Tiled,
      sizes (after pushes).fields.toList = (accepted pushes).map fun c => c.size.toNat,
      (after pushes).Partitioned,
      (after pushes).Locates].TFAE := by
  obtain ⟨hfields, hsize⟩ := fields_after pushes
  have hzero : 0 < Count.modulus := by decide
  refine ⟨follows_after pushes, Tables.agrees_after pushes, ?_⟩
  tfae_have 1 → 2 := fun h => by
    rw [Tiled, hfields, hsize, Count.add_of_lt (by rwa [Nat.zero_add])]
    exact tile_laid (by rwa [Nat.zero_add])
  tfae_have 1 → 3 := fun h => by
    rw [hfields]
    exact sizes_laid (by rwa [Nat.zero_add])
  tfae_have 3 → 1 := fun h => by
    rw [hfields] at h
    have hcounted := counted_of_sizes hzero h
    rwa [Nat.zero_add] at hcounted
  tfae_have 2 → 4 := Tiled.partitioned
  tfae_have 4 ↔ 5 := locates_iff_partitioned.symm
  tfae_have 4 → 1 := fun h => by
    -- the sizes add up to the end of the buffer, which leaves no room for a variable that wraps
    have hsum : (sizes (laid 0 (accepted pushes))).sum = Count.add 0 (entries (accepted pushes)) := by
      rw [← hsize, ← h.sum_sizes, ← hfields, spans, List.map_map]
      rfl
    have hcounted := counted_of_sum_le hzero (by rw [hsum, Nat.zero_add])
    rwa [Nat.zero_add] at hcounted
  tfae_finish

/-- Empty variables hold nothing, and a second push of a name is refused. -/
example : (after [⟨"a", 0⟩, ⟨"b", 2⟩, ⟨"a", 3⟩, ⟨"c", 0⟩, ⟨"d", 1⟩]).locate 2 = some (3, 0) := by
  decide +kernel

namespace Wrapped

/-- Two entries, and as many as a word can say. -/
def pushes : List Push := [⟨"a", 2⟩, ⟨"b", 18446744073709551615⟩]

/-- The second variable ends before it starts, and an index at the end of the buffer is located in the
first. -/
theorem not_tiled_pushes :
    (after pushes).spans = [⟨0, 2⟩, ⟨2, 1⟩] ∧ (after pushes).size = 1 ∧
      (after pushes).locate 1 = some (0, 1) ∧
      ¬ (after pushes).Tiled ∧ ¬ (after pushes).Partitioned ∧ ¬ (after pushes).Locates := by
  have hspans : (after pushes).spans = [⟨0, 2⟩, ⟨2, 1⟩] := by decide +kernel
  have hsize : (after pushes).size = 1 := by decide +kernel
  have hlocate : (after pushes).locate 1 = some (0, 1) := by decide +kernel
  have hlocates : ¬ (after pushes).Locates := fun h => by
    have hnone := h.outside 1 hsize.le
    rw [hlocate] at hnone
    cases hnone
  have hpartitioned : ¬ (after pushes).Partitioned := mt locates_iff_partitioned.2 hlocates
  exact ⟨hspans, hsize, hlocate, mt Tiled.partitioned hpartitioned, hpartitioned, hlocates⟩

end Wrapped

end Layout

end Mdao
