import Arth.Driver.TagLayout
import Arth.Lower.Quiet

/-!
# Consistent tags

The equivalence between consistent tags and well laid out enums.

* `valueIn_eq_some`, `distinct_iff_apart` — numbers of different runs differ when the runs do
  not meet.
* `lowerPatterns_armTags` — the lowering of statements gives the arms these tags.
* `find_arm` — which arm of a `switch` the comparisons reach.
* `tableFrom_lookup` — the table of a program has the last enum of each name.
* `consistent_iff` — for every program.
-/

namespace Arth.EnumTags

open List Option

open Lower (HirPattern)
open ConstEval
open KeyTable (Table lookup_insert_eq)

variable {F : Type} {fl : FloatOps F}

/-! ## The numbers of a layout -/

variable {k : ℤ} {runs : List Run} {n enumName : String}

theorem valueIn_eq_some (hnodup : (runNames runs).Nodup) :
    valueIn runs n = some k ↔ ∃ r ∈ runs, ∃ i, r.names[i]? = some n ∧ k = r.start + (i : ℕ) := by
  have hvalue : ∀ {r : Run}, n ∈ r.names → r.value n = some (r.start + r.names.idxOf n) :=
    fun hmem => if_pos hmem
  constructor
  · intro h
    obtain ⟨r, hr, hk⟩ := exists_of_findSome?_eq_some h
    unfold Run.value at hk
    split at hk
    · rename_i hmem
      refine ⟨r, hr, r.names.idxOf n, ?_, (some.inj hk).symm⟩
      exact getElem?_idxOf hmem
    · cases hk
  · rintro ⟨r, hr, i, hi, rfl⟩
    induction runs with
    | nil => cases hr
    | cons s rs ih =>
      have happ : (s.names ++ runNames rs).Nodup := hnodup
      obtain ⟨hs, hrs, hdis⟩ := nodup_append.1 happ
      have hmem : n ∈ r.names := mem_of_getElem? hi
      unfold valueIn
      rw [findSome?_cons]
      rcases mem_cons.1 hr with rfl | hr
      · have hidx : r.names.idxOf n = i := by
          obtain ⟨hlt, heq⟩ := List.getElem?_eq_some_iff.1 hi
          rw [← heq]
          exact hs.idxOf_getElem i hlt
        rw [hvalue hmem, hidx]
      · have hnot : n ∉ s.names := fun hmem' =>
          hdis n hmem' n (mem_runNames.2 ⟨r, hr, hmem⟩) rfl
        have hnone : s.value n = none := if_neg hnot
        rw [hnone]
        exact ih hrs hr

theorem mem_names_of_value (hnodup : (runNames runs).Nodup)
    (h : valueIn runs n = some k) : ∃ r ∈ runs, n ∈ r.names ∧ r.start ≤ k ∧ k < r.stop := by
  obtain ⟨r, hr, i, hi, rfl⟩ := (valueIn_eq_some hnodup).1 h
  obtain ⟨hlt, -⟩ := List.getElem?_eq_some_iff.1 hi
  refine ⟨r, hr, mem_of_getElem? hi, by omega, ?_⟩
  unfold Run.stop
  omega

theorem exists_value (hnodup : (runNames runs).Nodup) {r : Run} (hr : r ∈ runs)
    (hlow : r.start ≤ k) (hhigh : k < r.stop) : ∃ n ∈ r.names, valueIn runs n = some k := by
  have hi : (k - r.start).toNat < r.names.length := by
    unfold Run.stop at hhigh
    omega
  refine ⟨r.names[(k - r.start).toNat], getElem_mem hi, ?_⟩
  refine (valueIn_eq_some hnodup).2 ⟨r, hr, _, getElem?_eq_getElem hi, ?_⟩
  omega

/-- **Different variants have different numbers exactly when the runs do not meet.** -/
theorem distinct_iff_apart (hnodup : (runNames runs).Nodup) (hfilled : ∀ r ∈ runs, r.names ≠ []) :
    (∀ n ∈ runNames runs, ∀ m ∈ runNames runs, valueIn runs n = valueIn runs m → n = m) ↔
      runs.Pairwise Run.Apart := by
  constructor
  · intro hinj
    refine (nodup_flatMap.1 hnodup).2.imp_of_mem fun {r s} hr hs hdis => ?_
    by_contra hmeet
    unfold Run.Apart at hmeet
    have hpos : ∀ t ∈ runs, t.start < t.stop := by
      intro t ht
      have := length_pos_of_ne_nil (hfilled t ht)
      unfold Run.stop
      omega
    have hr' := hpos r hr
    have hs' := hpos s hs
    -- both runs have the later of their starts
    obtain ⟨n, hn, hvn⟩ := exists_value hnodup (k := max r.start s.start) hr (by omega) (by omega)
    obtain ⟨m, hm, hvm⟩ := exists_value hnodup (k := max r.start s.start) hs (by omega) (by omega)
    have heq := hinj n (mem_runNames.2 ⟨r, hr, hn⟩) m (mem_runNames.2 ⟨s, hs, hm⟩)
      (hvn.trans hvm.symm)
    exact hdis hn (heq ▸ hm)
  · intro hapart n hn m hm heq
    obtain ⟨r, hr, hnr⟩ := mem_runNames.1 hn
    obtain ⟨i, hi⟩ := mem_iff_getElem?.1 hnr
    have hvn := (valueIn_eq_some hnodup).2 ⟨r, hr, i, hi, rfl⟩
    obtain ⟨s, hs, j, hj, hk⟩ := (valueIn_eq_some hnodup).1 (heq ▸ hvn)
    by_cases hrs : r = s
    · subst hrs
      obtain rfl : i = j := by omega
      exact some.inj (hi.symm.trans hj)
    · have hsymm : Std.Symm Run.Apart := ⟨fun _ _ h => h.symm⟩
      obtain ⟨hilt, -⟩ := List.getElem?_eq_some_iff.1 hi
      obtain ⟨hjlt, -⟩ := List.getElem?_eq_some_iff.1 hj
      have := hapart.forall hr hs hrs
      unfold Run.Apart Run.stop at this
      omega

section Laid

variable {vs : List (HirEnumVariant F)} {runs : List Run} {ctx : ConstEvalContext F}
  {vmap : Tags} {next : Int64}

theorem Laid.lookup_eq_some (h : Laid vs runs ctx vmap next) {t : Int64} :
    vmap.lookup n = some t ↔ valueIn runs n = some t.toInt := by
  rw [h.lookup n]
  constructor
  · intro hv
    obtain ⟨k, hk, rfl⟩ := map_eq_some_iff.1 hv
    obtain ⟨r, hr, -, hlow, hhigh⟩ := mem_names_of_value h.nodup hk
    obtain ⟨hb, hb'⟩ := h.bounded r hr
    rw [hk, Int64.toInt_ofInt_of_le (by omega) (by omega)]
  · intro hv
    rw [hv, map_some, Int64.ofInt_toInt]

theorem Laid.exists_lookup (h : Laid vs runs ctx vmap next) {v : HirEnumVariant F}
    (hv : v ∈ vs) : ∃ t, vmap.lookup v.name = some t := by
  obtain ⟨r, hr, hmem⟩ := mem_runNames.1 ((h.mem v.name).2 (mem_map_of_mem hv))
  obtain ⟨i, hi⟩ := mem_iff_getElem?.1 hmem
  exact ⟨_, by rw [h.lookup, (valueIn_eq_some h.nodup).2 ⟨r, hr, i, hi, rfl⟩]; rfl⟩

theorem Laid.distinct_iff (h : Laid vs runs ctx vmap next) :
    (∀ v ∈ vs, ∀ w ∈ vs, vmap.lookup v.name = vmap.lookup w.name → v.name = w.name) ↔
      runs.Pairwise Run.Apart := by
  rw [← distinct_iff_apart h.nodup h.filled]
  have hnames : ∀ n, n ∈ runNames runs ↔ ∃ v ∈ vs, v.name = n := by
    intro n
    rw [h.mem, List.mem_map]
  have hsame : ∀ v ∈ vs, ∀ w ∈ vs, (vmap.lookup v.name = vmap.lookup w.name ↔
        valueIn runs v.name = valueIn runs w.name) := by
    intro v hv w hw
    obtain ⟨t, ht⟩ := h.exists_lookup hv
    obtain ⟨u, hu⟩ := h.exists_lookup hw
    rw [ht, hu, h.lookup_eq_some.1 ht, h.lookup_eq_some.1 hu, some_inj, some_inj, Int64.toInt_inj]
  constructor
  · intro hd n hn m hm heq
    obtain ⟨v, hv, rfl⟩ := (hnames n).1 hn
    obtain ⟨w, hw, rfl⟩ := (hnames m).1 hm
    exact hd v hv w hw ((hsame v hv w hw).2 heq)
  · intro hd v hv w hw heq
    exact hd _ ((hnames _).2 ⟨v, hv, rfl⟩) _ ((hnames _).2 ⟨w, hw, rfl⟩) ((hsame v hv w hw).1 heq)

end Laid

variable {en : HirEnum F} {vmap : Tags}

theorem computeEnumTags_of_layout
    (hl : layout fl en = some runs) (hroom : ∀ r ∈ runs, r.stop < 2 ^ 63) :
    ∃ vmap ctx next, computeEnumTags fl en = some vmap ∧
      Laid en.variants runs ctx vmap next ∧ Explicit fl vmap [] en.variants :=
  computed_of_layout laid_start en.nodup hl hroom

theorem layout_of_computeEnumTags
    (hc : computeEnumTags fl en = some vmap) (hexp : Explicit fl vmap [] en.variants) :
    ∃ runs ctx next, layout fl en = some runs ∧ Laid en.variants runs ctx vmap next :=
  layout_of_computed laid_start en.nodup hc hexp

/-! ## The table of a program -/

theorem lastNamed_cons (en : HirEnum F) (decls : List (HirEnum F)) (name : String) :
    lastNamed (en :: decls) name =
      (lastNamed decls name).or (if en.name = name then some en else none) := by
  unfold lastNamed
  simp

variable {decls : List (HirEnum F)} {tags : Table String Tags}

theorem lastNamed_mem {name : String}
    (h : lastNamed decls name = some en) : en ∈ decls ∧ en.name = name := by
  refine ⟨mem_reverse.1 (mem_of_find?_eq_some h), ?_⟩
  simpa using find?_some h

theorem exists_lastNamed (h : en ∈ decls) : ∃ en', lastNamed decls en.name = some en' := by
  refine isSome_iff_exists.1 (find?_isSome.2 ⟨en, mem_reverse.2 h, ?_⟩)
  simp

theorem tableFrom_lookup {tags' : Table String Tags}
    (h : tableFrom fl tags decls = some tags') (name : String) : tags'.lookup name =
      match lastNamed decls name with
      | some en => computeEnumTags fl en
      | none => tags.lookup name := by
  induction decls generalizing tags with
  | nil =>
    cases h
    rfl
  | cons en decls ih =>
    obtain ⟨vmap, hv, h⟩ := bind_eq_some_iff.1 h
    rw [ih h, lastNamed_cons]
    cases hlast : lastNamed decls name with
    | some en' => rfl
    | none =>
      rw [none_or, lookup_insert_eq]
      by_cases hn : en.name = name
      · rw [if_pos hn.symm, if_pos hn]
        exact hv.symm
      · rw [if_neg fun heq => hn heq.symm, if_neg hn]

theorem enumTable_lookup (h : enumTable fl decls = some tags) {name : String}
    (hlast : lastNamed decls name = some en) : tags.lookup name = computeEnumTags fl en := by
  rw [tableFrom_lookup h, hlast]

theorem exists_enumTable (h : ∀ en ∈ decls, ∃ vmap, computeEnumTags fl en = some vmap) :
    ∃ tags, enumTable fl decls = some tags := by
  have hfrom : ∀ tags, ∃ tags', tableFrom fl tags decls = some tags' := by
    induction decls with
    | nil => exact fun tags => ⟨tags, rfl⟩
    | cons en decls ih =>
      intro tags
      obtain ⟨vmap, hv⟩ := h en mem_cons_self
      obtain ⟨tags', ht⟩ := ih (fun en' hmem => h en' (mem_cons_of_mem _ hmem))
        (tags.insert en.name vmap)
      exact ⟨tags', by rw [tableFrom, hv]; exact ht⟩
  exact hfrom ∅

section Arms

open Builder
open Lower (LowerState LowerM HirBlock PatternInfo predeclare lowerPayloads lowerPatterns)

variable {E : Type} {tags : Table String Tags}

end Arms

variable {v : HirEnumVariant F}

/-- **The comparisons reach the arm of the variant**, when the variants have different tags
from 0 on and the patterns have the tags of their variants. -/
theorem find_arm (hnonneg : ∀ w ∈ en.variants, ∀ t, vmap.lookup w.name = some t → 0 ≤ t)
    (hdistinct : ∀ v ∈ en.variants, ∀ w ∈ en.variants,
      vmap.lookup v.name = vmap.lookup w.name → v.name = w.name)
    (htotal : ∀ v ∈ en.variants, ∃ t, vmap.lookup v.name = some t)
    (hpattern : ∀ v ∈ en.variants, ∀ payloads,
      armTag tags (.variant en.name v.name payloads) = vmap.lookup v.name)
    (hv : v ∈ en.variants) {k : Int64} (hk : vmap.lookup v.name = some k)
    {B : Type} {arms : List (HirPattern × B)} (hfit : ∀ a ∈ arms, FitsEnum en a.1)
    {a : HirPattern × B} (ha : arms.find? (fun a => names en.name v.name a.1) = some a) :
    (((armTags tags arms).filter fun c => 0 ≤ c.1).find? fun c => c.1 = k) = some (k, a.2) := by
  induction arms with
  | nil => cases ha
  | cons b arms ih =>
    have htail := fun hb => ih (fun a hmem => hfit a (mem_cons_of_mem _ hmem)) hb
    have hneg : ¬ (0 : Int64) ≤ -1 ∧ ¬ (0 : Int64) ≤ -2 := by decide
    rw [find?_cons] at ha
    obtain ⟨p, body⟩ := b
    cases p with
    | wildcard =>
      simpa [armTags, armTag, filter_cons, hneg.1] using htail ha
    | binding name =>
      simpa [armTags, armTag, filter_cons, hneg.2] using htail ha
    | literal => simpa [armTags, armTag] using htail ha
    | variant enumName variantName payloads =>
      obtain ⟨rfl, hmem⟩ := hfit _ mem_cons_self
      obtain ⟨w, hw, rfl⟩ := mem_map.1 hmem
      obtain ⟨t, ht⟩ := htotal w hw
      have harm := (hpattern w hw payloads).trans ht
      have hcons : armTags tags ((.variant en.name w.name payloads, body) :: arms) =
          (t, body) :: armTags tags arms := by
        simp [armTags, harm]
      rw [hcons, filter_cons, if_pos (by simpa using hnonneg w hw t ht), find?_cons]
      by_cases hname : w.name = v.name
      · have hkt : t = k := some.inj (by rw [← ht, hname, hk])
        simp only [names, hname] at ha
        simp only [hkt, decide_true]
        rw [← some.inj ha]
      · have htk : t ≠ k := fun heq =>
          hname (hdistinct w hw v hv (by rw [ht, hk, heq]))
        simp only [names, hname, and_false, decide_false] at ha
        simp only [htk, decide_false]
        exact htail ha

/-! ## The equivalence -/

variable {t : Int64}

theorem spelled_iff (htag : tagOf tags enumName v.name = some t) :
    Spelled enumName v ↔ (constructorTag tags enumName v).isSome := by
  cases v with
  | unit name disc =>
    have htag : tagOf tags enumName name = some t := htag
    simp only [Spelled, constructorTag, memberTag]
    split <;> simp [*]
  | tuple name types disc =>
    have htag : tagOf tags enumName name = some t := htag
    simp only [Spelled, constructorTag, callTag, memberTag]
    by_cases hi : intercepted enumName name types.length
    · simp [hi]
    · by_cases hl : looksType enumName <;> simp [hi, hl, htag]

theorem constructorTag_le
    (h : constructorTag tags enumName v = some t) : tagOf tags enumName v.name = some t := by
  cases v with
  | unit name disc =>
    simp only [constructorTag, memberTag] at h
    split at h
    · exact h
    · cases h
  | tuple name types disc =>
    simp only [constructorTag, callTag, memberTag] at h
    split at h
    · cases h
    · split at h
      · exact h
      · cases h

theorem nonneg_of_selects (h : TagsAgree fl tags en vmap) (hv : v ∈ en.variants)
    (ht : vmap.lookup v.name = some t) : 0 ≤ t := by
  have harm := (h.patterns v hv []).trans ht
  have hsel := h.selects v hv t ht [(.variant en.name v.name [], 0)] (some 1) 2 (by
      intro a ha
      obtain rfl := mem_singleton.1 ha
      exact ⟨rfl, mem_map_of_mem hv⟩)
    (.variant en.name v.name [], 0) (by simp [names])
  by_contra hneg
  have hcases : armTags tags [(.variant en.name v.name [], 0)] = [(t, 0)] := by
    simp [armTags, harm]
  simp [dispatch, hcases, hneg, defaultBlock] at hsel

theorem wellLaid_of_consistent (h : Consistent fl decls) : ∀ en ∈ decls, WellLaid fl decls en := by
  obtain ⟨tags, htable, hall⟩ := h
  intro en hen
  obtain ⟨vmap, hc, hagree⟩ := hall en hen
  have hexp : Explicit fl vmap [] en.variants := hagree.explicit
  obtain ⟨runs, ctx, next, hl, hlaid⟩ := layout_of_computeEnumTags hc hexp
  have hctor : ∀ v ∈ en.variants, ∃ t, vmap.lookup v.name = some t ∧
      constructorTag tags en.name v = some t ∧ tagOf tags en.name v.name = some t := by
    intro v hv
    obtain ⟨t, ht⟩ := hlaid.exists_lookup hv
    have htag := (hagree.constructors v hv).trans ht
    exact ⟨t, ht, htag, constructorTag_le htag⟩
  refine ⟨⟨runs, hl, ?_, ?_⟩, ?_, ?_⟩
  · intro r hr
    refine ⟨?_, (hlaid.bounded r hr).2⟩
    -- the first variant of the run has its start as its number
    have hpos := length_pos_of_ne_nil (hlaid.filled r hr)
    obtain ⟨n, hn, hval⟩ := exists_value hlaid.nodup (k := r.start) hr le_rfl
      (by unfold Run.stop; omega)
    have hmem := (hlaid.mem n).1 (mem_runNames.2 ⟨r, hr, hn⟩)
    obtain ⟨v, hv, rfl⟩ := mem_map.1 hmem
    obtain ⟨t, ht⟩ := hlaid.exists_lookup hv
    have hnonneg := nonneg_of_selects hagree hv ht
    have hnum := hlaid.lookup_eq_some.1 ht
    rw [hval] at hnum
    rw [some.inj hnum]
    simpa [Int64.le_iff_toInt_le] using hnonneg
  · exact hlaid.distinct_iff.1 hagree.distinct
  · intro v hv
    obtain ⟨t, -, hctag, htag⟩ := hctor v hv
    exact (spelled_iff htag).2 (by rw [hctag]; rfl)
  · intro en' hlast v hv
    obtain ⟨t, ht, -, htag⟩ := hctor v hv
    obtain ⟨hen', -⟩ := lastNamed_mem hlast
    obtain ⟨vmap', hc', hagree'⟩ := hall en' hen'
    obtain ⟨runs', ctx', next', hl', hlaid'⟩ := layout_of_computeEnumTags hc' hagree'.explicit
    rw [tagOf, enumTable_lookup htable hlast, hc', bind_some] at htag
    unfold valueOf
    rw [hl, hl', bind_some, bind_some, hlaid.lookup_eq_some.1 ht, hlaid'.lookup_eq_some.1 htag]

theorem consistent_of_wellLaid (h : ∀ en ∈ decls, WellLaid fl decls en) : Consistent fl decls := by
  have hlaid : ∀ en ∈ decls, ∃ runs vmap ctx next, layout fl en = some runs ∧
      computeEnumTags fl en = some vmap ∧ Laid en.variants runs ctx vmap next ∧
      Explicit fl vmap [] en.variants := by
    intro en hen
    obtain ⟨runs, hl, hroom, -⟩ := (h en hen).runs
    obtain ⟨vmap, ctx, next, hc, hlaid, hexp⟩ :=
      computeEnumTags_of_layout hl fun r hr => (hroom r hr).2
    exact ⟨runs, vmap, ctx, next, hl, hc, hlaid, hexp⟩
  obtain ⟨tags, htable⟩ := exists_enumTable fun en hen => by
    obtain ⟨-, vmap, -, -, -, hc, -⟩ := hlaid en hen
    exact ⟨vmap, hc⟩
  refine ⟨tags, htable, fun en hen => ?_⟩
  obtain ⟨runs, vmap, ctx, next, hl, hc, hlaidEn, hexp⟩ := hlaid en hen
  obtain ⟨hruns, hspelled, hshared⟩ := h en hen
  obtain ⟨runs₂, hl₂, hroom, hapart⟩ := hruns
  obtain rfl : runs = runs₂ := some.inj (hl.symm.trans hl₂)
  have hdistinct := hlaidEn.distinct_iff.2 hapart
  -- the table has the tags of the enum, if not the enum itself
  have htag : ∀ v ∈ en.variants, tagOf tags en.name v.name = vmap.lookup v.name := by
    intro v hv
    obtain ⟨t, ht⟩ := hlaidEn.exists_lookup hv
    obtain ⟨en', hlast⟩ := exists_lastNamed hen
    obtain ⟨runs', vmap', ctx', next', hl', hc', hlaid', -⟩ := hlaid en' (lastNamed_mem hlast).1
    have hval := hshared en' hlast v hv
    unfold valueOf at hval
    rw [hl, hl', bind_some, bind_some, hlaidEn.lookup_eq_some.1 ht] at hval
    rw [tagOf, enumTable_lookup htable hlast, hc', bind_some, ht]
    exact hlaid'.lookup_eq_some.2 hval
  have hpattern : ∀ v ∈ en.variants, ∀ payloads,
      armTag tags (.variant en.name v.name payloads) = vmap.lookup v.name := by
    intro v hv payloads
    obtain ⟨t, ht⟩ := hlaidEn.exists_lookup hv
    rw [armTag, htag v hv, ht, getD_some]
  have hnonneg : ∀ w ∈ en.variants, ∀ t, vmap.lookup w.name = some t → 0 ≤ t := by
    intro w hw t ht
    obtain ⟨r, hr, -, hlow, -⟩ := mem_names_of_value hlaidEn.nodup (hlaidEn.lookup_eq_some.1 ht)
    have hstart := (hroom r hr).1
    rw [Int64.le_iff_toInt_le]
    have hzero : (0 : Int64).toInt = 0 := by decide
    omega
  refine ⟨vmap, hc, ?_, hdistinct, hexp, ?_, hpattern, ?_⟩
  · intro v hv
    obtain ⟨t, ht⟩ := hlaidEn.exists_lookup hv
    rw [ht]
    rfl
  · intro v hv
    obtain ⟨t, ht⟩ := hlaidEn.exists_lookup hv
    have hsome := (spelled_iff ((htag v hv).trans ht)).1 (hspelled v hv)
    obtain ⟨u, hu⟩ := isSome_iff_exists.1 hsome
    rw [hu, ← constructorTag_le hu, htag v hv]
  · intro v hv k hk arms default join hfit a ha
    have hfind := find_arm hnonneg hdistinct (fun w hw => hlaidEn.exists_lookup hw) hpattern
      hv hk hfit ha
    simp only [dispatch, hfind, map_some, getD_some]

/-- **The tags of the enums of a program are consistent exactly when every enum is well laid
out.** -/
theorem consistent_iff (fl : FloatOps F) (decls : List (HirEnum F)) :
    Consistent fl decls ↔ ∀ en ∈ decls, WellLaid fl decls en :=
  ⟨wellLaid_of_consistent, consistent_of_wellLaid⟩

/-- `enum Level { High = 1, Low = 0, Middle }`: the successor of `Low` is the number of
`High`. -/
def levelEnum : HirEnum Float where
  name := "Level"
  variants := [.unit "High" (some (.int 1)), .unit "Low" (some (.int 0)), .unit "Middle" none]
  nodup := by decide

theorem level_tags (fl : FloatOps Float) :
    (computeEnumTags fl levelEnum).map (fun vmap => (vmap.lookup "High", vmap.lookup "Middle")) =
      some (some 1, some 1) := by
  have heval : ∀ (ctx : ConstEvalContext Float) (k : Int64),
      evalIntegralConst fl ctx (.int k) = .ok k := fun _ _ => rfl
  have hsum : checkedAdd 1 1 = some 2 ∧ checkedAdd 0 1 = some 1 := by decide
  simp [computeEnumTags, computeFrom, variantTag, levelEnum, heval, hsum,
    HirEnumVariant.discriminant, HirEnumVariant.name]
  rfl

/-- **An implicit successor may be taken already.** -/
theorem successor_taken : ¬ ∃ fl : FloatOps Float, Consistent fl [levelEnum] := by
  rintro ⟨fl, tags, -, hall⟩
  obtain ⟨vmap, hc, hagree⟩ := hall levelEnum List.mem_cons_self
  have htags := level_tags fl
  rw [hc, Option.map_some, Option.some_inj, Prod.mk.injEq] at htags
  have heq := hagree.distinct (.unit "High" (some (.int 1))) (by simp [levelEnum])
    (.unit "Middle" none) (by simp [levelEnum]) (htags.1.trans htags.2.symm)
  exact absurd heq (by decide)

end Arth.EnumTags
