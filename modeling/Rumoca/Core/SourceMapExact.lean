import Rumoca.Core.SourceMap
/-!
# The source map answers by its files

Every file's name derives its id and no id is filed twice; the two indexes then
say what the list of files says, before and after a save. The files are the first
calls for their ids, so the answers do not depend on the order of different ids.
-/

namespace Rumoca.Core

open Rumoca.Lib

variable {Content : Type}

/-! ## Spelled names -/

theorem toDigit16_digitChar {d : Nat} (h : d < 16) :
    toDigit16 (Nat.digitChar d) = some d ∧ (Nat.digitChar d).utf8Size = 1 := by
  interval_cases d <;> exact ⟨rfl, rfl⟩

theorem parseDigits_append (text more : List Char) (value : Nat) :
    parseDigits (text ++ more) value = (parseDigits text value).bind (parseDigits more) := by
  induction text generalizing value with
  | nil => rfl
  | cons ch rest ih =>
    simp only [List.cons_append, parseDigits, Option.bind_eq_bind, Option.bind_assoc, ih]

theorem parseDigits_hexText {width n value : Nat} (h : n < 16 ^ width) (hfits : value * 16 ^ width + n < 2 ^ 64) :
    parseDigits (hexText width n) value = some (value * 16 ^ width + n) := by
  induction width generalizing n with
  | zero =>
    obtain rfl : n = 0 := Nat.lt_one_iff.1 (by simpa using h)
    simp [hexText, parseDigits]
  | succ width ih =>
    have hdigit : n % 16 < 16 := Nat.mod_lt _ (by decide)
    have hsplit : value * 16 ^ (width + 1) + n = (value * 16 ^ width + n / 16) * 16 + n % 16 := by
      rw [pow_succ, Nat.add_mul, Nat.mul_assoc, Nat.add_assoc, Nat.div_add_mod']
    have hquotient : n / 16 < 16 ^ width := Nat.div_lt_of_lt_mul (by rw [pow_succ] at h; omega)
    rw [hexText, parseDigits_append, ih hquotient (by omega), Option.bind_some, parseDigits,
      (toDigit16_digitChar hdigit).1, hsplit]
    simp only [Option.bind_eq_bind, Option.bind_some, checkedU64]
    rw [if_pos (by omega)]
    rfl

theorem mem_hexText {width n : Nat} {ch : Char} (h : ch ∈ hexText width n) :
    (toDigit16 ch).isSome ∧ ch.utf8Size = 1 := by
  induction width generalizing n with
  | zero => cases h
  | succ width ih =>
    rcases List.mem_append.1 h with h | h
    · exact ih h
    · obtain rfl := List.mem_singleton.1 h
      obtain ⟨hdigit, hsize⟩ := toDigit16_digitChar (Nat.mod_lt n (by decide : 0 < 16))
      exact ⟨by rw [hdigit]; rfl, hsize⟩

theorem length_hexText (width n : Nat) : (hexText width n).length = width := by
  induction width generalizing n with
  | zero => rfl
  | succ width ih => rw [hexText, List.length_append, ih, List.length_singleton]

theorem utf8Length_hexText (width n : Nat) : utf8Length (hexText width n) = width := by
  have hsizes : (hexText width n).map Char.utf8Size = List.replicate width 1 :=
    List.eq_replicate_iff.2 ⟨by rw [List.length_map, length_hexText], fun size hsize => by
      obtain ⟨ch, hch, rfl⟩ := List.mem_map.1 hsize
      exact (mem_hexText hch).2⟩
  rw [utf8Length, hsizes, List.sum_replicate, smul_eq_mul, Nat.mul_one]

theorem fromStrRadix16_hexText {n : Nat} (h : n < 2 ^ 64) : fromStrRadix16 (hexText 16 n) = some n := by
  have hparse : parseDigits (hexText 16 n) 0 = some n := by
    rw [parseDigits_hexText (by omega) (by omega), Nat.zero_mul, Nat.zero_add]
  have hplus : '+' ∉ hexText 16 n := fun hmem => absurd (mem_hexText hmem).1 (by decide)
  have hlength := length_hexText 16 n
  match htext : hexText 16 n with
  | [] =>
    rw [htext] at hlength
    cases hlength
  | ch :: rest =>
    have hch : ch ≠ '+' := fun heq => hplus (by rw [htext, heq]; exact List.mem_cons_self)
    rw [htext] at hparse
    unfold fromStrRadix16
    split
    · cases ‹_ :: _ = []›
    · exact absurd (List.cons.inj ‹_›).1 hch
    · exact absurd (List.cons.inj ‹_›).1 hch
    · exact hparse

theorem sourceIdForName_placeholder (fromSourceName : SourceName → SourceId) (id : SourceId) :
    sourceIdForName fromSourceName (placeholderSourceName id) = id := by
  have hpre : stripPrefix placeholderSourceNamePrefix (placeholderSourceName id) =
      some (hexText 16 id.value.toNat ++ ['>']) := by
    unfold stripPrefix placeholderSourceName
    rw [List.append_assoc, if_pos (List.prefix_append _ _), List.drop_left]
  have hsuffix : stripSuffix ['>'] (hexText 16 id.value.toNat ++ ['>']) = some (hexText 16 id.value.toNat) := by
    unfold stripSuffix
    rw [if_pos (List.suffix_append _ _), List.length_append, Nat.add_sub_cancel, List.take_left]
  have hdecode : decodePlaceholderSourceName (placeholderSourceName id) = some id := by
    simp only [decodePlaceholderSourceName, hpre, hsuffix, Option.bind_eq_bind, Option.bind_some]
    rw [utf8Length_hexText, if_neg (not_not.2 rfl), fromStrRadix16_hexText id.value.isLt, Option.map_some,
      BitVec.ofNat_toNat, BitVec.setWidth_eq]
  rw [sourceIdForName, hdecode, Option.getD_some]

section
variable (fromSourceName : SourceName → SourceId)

theorem sourceIdForName_filedName (id : SourceId) (displayName : SourceName) :
    sourceIdForName fromSourceName (SourceMap.filedName fromSourceName id displayName) = id := by
  unfold SourceMap.filedName
  split_ifs with h
  · exact h
  · exact sourceIdForName_placeholder fromSourceName id

/-! ## Files and indexes -/

def sourceOf (files : List (SourceFile Content)) (id : SourceId) : Option (SourceName × Content) :=
  (files.find? (·.1 = id)).map Prod.snd

/-- Every name derives its id, and no id is filed twice. -/
structure Filed (files : List (SourceFile Content)) : Prop where
  derives : ∀ file ∈ files, sourceIdForName fromSourceName file.2.1 = file.1
  ids : (files.map Prod.fst).Nodup

/-- The indexes of the files: every position by its id, and names by ids that are filed. -/
structure Indexed (files : List (SourceFile Content)) (indexes : SourceIndexes) : Prop where
  position : ∀ id index, indexes.idToIndex id = some index ↔ ∃ source, files[index]? = some (id, source)
  names : ∀ name id, indexes.nameToId name = some id →
    sourceIdForName fromSourceName name = id ∧ (indexes.idToIndex id).isSome

variable {fromSourceName}

theorem Filed.names {files : List (SourceFile Content)} (h : Filed fromSourceName files) :
    (files.map (·.2.1)).Nodup := by
  refine List.Nodup.of_map (sourceIdForName fromSourceName) ?_
  rw [List.map_map]
  have hids : files.map (sourceIdForName fromSourceName ∘ fun file => file.2.1) = files.map Prod.fst :=
    List.map_congr_left h.derives
  rw [hids]
  exact h.ids

section
variable {files : List (SourceFile Content)} {indexes : SourceIndexes}

theorem Indexed.isSome (h : Indexed fromSourceName files indexes) (id : SourceId) :
    (indexes.idToIndex id).isSome ↔ ∃ source, (id, source) ∈ files := by
  rw [Option.isSome_iff_exists]
  constructor
  · rintro ⟨index, hindex⟩
    obtain ⟨source, hsource⟩ := (h.position id index).1 hindex
    exact ⟨source, List.mem_of_getElem? hsource⟩
  · rintro ⟨source, hsource⟩
    obtain ⟨index, hindex⟩ := List.mem_iff_getElem?.1 hsource
    exact ⟨index, (h.position id index).2 ⟨source, hindex⟩⟩

theorem sourceOf_eq_some (hfiled : Filed fromSourceName files) {id : SourceId} {source : SourceName × Content} :
    sourceOf files id = some source ↔ (id, source) ∈ files := by
  obtain ⟨-, hids⟩ := hfiled
  unfold sourceOf
  induction files with
  | nil => simp
  | cons file rest ih =>
    rw [List.map_cons, List.nodup_cons] at hids
    rw [List.find?_cons, List.mem_cons]
    by_cases hid : file.1 = id
    · have hrest : (id, source) ∉ rest := fun hmem => hids.1 (List.mem_map.2 ⟨(id, source), hmem, hid.symm⟩)
      rw [decide_eq_true hid, Option.map_some, Option.some.injEq, or_iff_left hrest]
      exact ⟨fun h => Prod.ext hid.symm h.symm, fun h => (congrArg Prod.snd h).symm⟩
    · rw [decide_eq_false hid, ih hids.2]
      exact ⟨.inr, fun h => h.resolve_left fun heq => hid (congrArg Prod.fst heq).symm⟩

theorem isSome_sourceOf {id : SourceId} : (sourceOf files id).isSome ↔ ∃ source, (id, source) ∈ files := by
  unfold sourceOf
  rw [Option.isSome_map, List.find?_isSome]
  simp only [decide_eq_true_eq]
  constructor
  · rintro ⟨file, hfile, rfl⟩
    exact ⟨file.2, hfile⟩
  · rintro ⟨source, hsource⟩
    exact ⟨_, hsource, rfl⟩

/-! ## Answers -/

theorem SourceMap.getSource_eq {map : SourceMap Content} (hfiled : Filed fromSourceName map.files)
    (h : Indexed fromSourceName map.files map.toSourceIndexes) (id : SourceId) :
    map.getSource id = sourceOf map.files id := by
  unfold SourceMap.getSource
  cases hindex : map.idToIndex id with
  | none =>
    have hnone : ¬(sourceOf map.files id).isSome := by
      rw [isSome_sourceOf, ← h.isSome, hindex]
      decide
    rw [Option.not_isSome_iff_eq_none.1 hnone]
    rfl
  | some index =>
    obtain ⟨source, hsource⟩ := (h.position id index).1 hindex
    have hmem := (sourceOf_eq_some hfiled).2 (List.mem_of_getElem? hsource)
    rw [hmem, Option.bind_eq_bind, Option.bind_some, hsource]
    rfl

theorem SourceMap.getId_eq {map : SourceMap Content} (h : Indexed fromSourceName map.files map.toSourceIndexes)
    (name : SourceName) : map.getId fromSourceName name =
      if (sourceOf map.files (sourceIdForName fromSourceName name)).isSome
      then some (sourceIdForName fromSourceName name) else none := by
  have hfiled : (map.idToIndex (sourceIdForName fromSourceName name)).isSome =
      (sourceOf map.files (sourceIdForName fromSourceName name)).isSome :=
    Bool.eq_iff_iff.2 ((h.isSome _).trans isSome_sourceOf.symm)
  unfold SourceMap.getId
  rw [← hfiled]
  cases hname : map.nameToId name with
  | none => rw [Option.none_or]
  | some id =>
    obtain ⟨rfl, hid⟩ := h.names name id hname
    rw [if_pos hid, Option.some_or]

/-! ## Registration -/

theorem sourceOf_push (id : SourceId) (source : SourceName × Content) (other : SourceId) :
    sourceOf (files ++ [(id, source)]) other =
      (sourceOf files other).or (if id = other then some source else none) := by
  unfold sourceOf
  rw [List.find?_append, Option.map_or, List.find?_singleton]
  by_cases hid : id = other <;> simp [hid]

theorem Filed.push (h : Filed fromSourceName files) {id : SourceId} {name : SourceName} {content : Content}
    (hname : sourceIdForName fromSourceName name = id) (hnew : sourceOf files id = none) :
    Filed fromSourceName (files ++ [(id, name, content)]) := by
  have hfresh : id ∉ files.map Prod.fst := by
    intro hmem
    obtain ⟨⟨other, source⟩, hfile, rfl⟩ := List.mem_map.1 hmem
    have hsome := isSome_sourceOf.2 ⟨source, hfile⟩
    rw [hnew] at hsome
    cases hsome
  refine ⟨fun file hfile => ?_, ?_⟩
  · rcases List.mem_append.1 hfile with hfile | hfile
    · exact h.derives file hfile
    · obtain rfl := List.mem_singleton.1 hfile
      exact hname
  · rw [List.map_append]
    exact List.Nodup.append h.ids (List.nodup_singleton _) (by simpa using hfresh)

theorem Indexed.push (h : Indexed fromSourceName files indexes) {id : SourceId} {name : SourceName} {content : Content}
    (hname : sourceIdForName fromSourceName name = id) (hnew : sourceOf files id = none) :
    Indexed fromSourceName (files ++ [(id, name, content)])
      ⟨Function.update indexes.nameToId name (some id),
        Function.update indexes.idToIndex id (some files.length)⟩ := by
  have hfresh : ∀ (index : Nat) source, files[index]? ≠ some (id, source) := by
    intro index source hindex
    have hsome := isSome_sourceOf.2 ⟨source, List.mem_of_getElem? hindex⟩
    rw [hnew] at hsome
    cases hsome
  refine ⟨fun other index => ?_, fun other found hfound => ?_⟩
  · dsimp only
    by_cases hid : other = id
    · subst hid
      rw [Function.update_self]
      constructor
      · rintro ⟨rfl⟩
        exact ⟨(name, content), by simp⟩
      · rintro ⟨source, hsource⟩
        rcases Nat.lt_or_ge index files.length with hlt | hge
        · rw [List.getElem?_append_left hlt] at hsource
          exact absurd hsource (hfresh index source)
        · have hlt := (List.getElem?_eq_some_iff.1 hsource).1
          rw [List.length_append, List.length_singleton] at hlt
          exact congrArg some (by omega)
    · rw [Function.update_of_ne hid, h.position]
      refine exists_congr fun source => ?_
      rcases Nat.lt_or_ge index files.length with hlt | hge
      · rw [List.getElem?_append_left hlt]
      · rw [List.getElem?_eq_none hge, List.getElem?_append_right hge]
        refine iff_of_false (by simp) fun hsource => hid ?_
        have hmem := List.mem_singleton.1 (List.mem_of_getElem? hsource)
        exact congrArg Prod.fst hmem
  · dsimp only at hfound ⊢
    by_cases hother : other = name
    · subst hother
      rw [Function.update_self] at hfound
      obtain rfl := Option.some.inj hfound
      exact ⟨hname, by rw [Function.update_self]; rfl⟩
    · rw [Function.update_of_ne hother] at hfound
      obtain ⟨hderives, hid⟩ := h.names other found hfound
      refine ⟨hderives, ?_⟩
      by_cases hid' : found = id
      · rw [hid', Function.update_self]
        rfl
      · rwa [Function.update_of_ne hid']

theorem Indexed.alias (h : Indexed fromSourceName files indexes) {id : SourceId} {name : SourceName}
    (hname : sourceIdForName fromSourceName name = id) (hid : (indexes.idToIndex id).isSome) :
    Indexed fromSourceName files ⟨Function.update indexes.nameToId name (some id), indexes.idToIndex⟩ := by
  refine ⟨h.position, fun other found (hfound : Function.update indexes.nameToId name (some id) other = some found) => ?_⟩
  by_cases hother : other = name
  · subst hother
    rw [Function.update_self] at hfound
    obtain rfl := Option.some.inj hfound
    exact ⟨hname, hid⟩
  · rw [Function.update_of_ne hother] at hfound
    exact h.names other found hfound

end

/-- The files and the indexes of a map agree. -/
structure SourceMap.Consistent (fromSourceName : SourceName → SourceId) (map : SourceMap Content) : Prop where
  filed : Filed fromSourceName map.files
  indexed : Indexed fromSourceName map.files map.toSourceIndexes

theorem SourceMap.Consistent.new : Consistent fromSourceName (SourceMap.new : SourceMap Content) :=
  ⟨⟨nofun, List.nodup_nil⟩, fun id index => by simp [SourceMap.new, SourceIndexes.new], nofun⟩

theorem SourceMap.Consistent.idToIndex_eq_none {map : SourceMap Content} (h : Consistent fromSourceName map)
    {id : SourceId} : map.idToIndex id = none ↔ sourceOf map.files id = none := by
  rw [← Option.not_isSome_iff_eq_none, ← Option.not_isSome_iff_eq_none, h.indexed.isSome, isSome_sourceOf]

/-- A new id is filed with the call's source, and a filed one keeps its own. -/
theorem SourceMap.Consistent.addShared {map : SourceMap Content} (h : Consistent fromSourceName map) (name : SourceName)
    (content : Content) : Consistent fromSourceName (map.addShared fromSourceName name content).1 ∧
      ∀ id, sourceOf (map.addShared fromSourceName name content).1.files id = (sourceOf map.files id).or
        (if sourceIdForName fromSourceName name = id then some (name, content) else none) := by
  unfold SourceMap.addShared
  dsimp only
  cases hindex : map.idToIndex (sourceIdForName fromSourceName name) with
  | none =>
    have hnew := h.idToIndex_eq_none.1 hindex
    simp only [Option.isSome_none, Bool.false_eq_true, if_false]
    exact ⟨⟨h.filed.push rfl hnew, h.indexed.push rfl hnew⟩, sourceOf_push _ _⟩
  | some index =>
    simp only [Option.isSome_some, if_true]
    refine ⟨⟨h.filed, h.indexed.alias rfl (by rw [hindex]; rfl)⟩, fun id => ?_⟩
    split_ifs with hid
    · subst hid
      obtain ⟨source, hsource⟩ := Option.ne_none_iff_exists'.1 (mt h.idToIndex_eq_none.2 (by rw [hindex]; nofun))
      rw [hsource, Option.some_or]
    · rw [Option.or_none]

theorem SourceMap.Consistent.registerId {map : SourceMap Content} (h : Consistent fromSourceName map) (id : SourceId)
    (displayName : SourceName) (content : Content) :
    Consistent fromSourceName (map.registerId fromSourceName id displayName content).1 ∧
      ∀ other, sourceOf (map.registerId fromSourceName id displayName content).1.files other =
        (sourceOf map.files other).or
          (if id = other then some (filedName fromSourceName id displayName, content) else none) := by
  have hname := sourceIdForName_filedName fromSourceName id displayName
  unfold SourceMap.registerId
  by_cases hfiled : (map.getSource id).isSome ∨ (map.nameToId (filedName fromSourceName id displayName)).isSome
  · have hsome : (sourceOf map.files id).isSome := by
      rcases hfiled with hsource | hentry
      · rwa [SourceMap.getSource_eq h.filed h.indexed] at hsource
      · obtain ⟨found, hfound⟩ := Option.isSome_iff_exists.1 hentry
        obtain ⟨hderives, hindex⟩ := h.indexed.names _ _ hfound
        rw [hname] at hderives
        exact isSome_sourceOf.2 ((h.indexed.isSome id).1 (hderives ▸ hindex))
    simp only [hfiled, if_true]
    refine ⟨h, fun other => ?_⟩
    split_ifs with hid
    · subst hid
      obtain ⟨source, hsource⟩ := Option.isSome_iff_exists.1 hsome
      rw [hsource, Option.some_or]
    · rw [Option.or_none]
  · have hnew : sourceOf map.files id = none := by
      rw [← SourceMap.getSource_eq h.filed h.indexed]
      exact Option.not_isSome_iff_eq_none.1 (not_or.1 hfiled).1
    simp only [hfiled, if_false]
    exact ⟨⟨h.filed.push hname hnew, h.indexed.push hname hnew⟩, sourceOf_push _ _⟩

namespace SourceCall

theorem apply_spec {map : SourceMap Content} (h : map.Consistent fromSourceName) (call : SourceCall Content) :
    (call.apply fromSourceName map).Consistent fromSourceName ∧
      ∀ id, sourceOf (call.apply fromSourceName map).files id = (sourceOf map.files id).or
        (if call.id fromSourceName = id then some (call.source fromSourceName) else none) := by
  cases call with
  | add name content => exact h.addShared name content
  | addShared name content => exact h.addShared name content
  | registerId id displayName content => exact h.registerId id displayName content

theorem run_spec (calls : List (SourceCall Content)) :
    (run fromSourceName calls).Consistent fromSourceName ∧
      ∀ id, sourceOf (run fromSourceName calls).files id =
        (calls.find? fun call => call.id fromSourceName = id).map (·.source fromSourceName) := by
  induction calls using List.reverseRecOn with
  | nil => exact ⟨.new, fun _ => rfl⟩
  | append_singleton calls call ih =>
    obtain ⟨hconsistent, hsources⟩ := ih
    have hrun : run fromSourceName (calls ++ [call]) = call.apply fromSourceName (run fromSourceName calls) :=
      List.foldl_append
    obtain ⟨hnext, hstep⟩ := apply_spec hconsistent call
    rw [hrun]
    refine ⟨hnext, fun id => ?_⟩
    rw [hstep, hsources, List.find?_append, Option.map_or, List.find?_singleton]
    by_cases hid : call.id fromSourceName = id <;> simp [hid]

end SourceCall

/-! ## The saved map -/

theorem checkFile_foldlM {files : List (SourceFile Content)} (h : Filed fromSourceName files)
    (pre : List (SourceFile Content)) {post : List (SourceFile Content)} (hsplit : files = pre ++ post)
    {indexes : SourceIndexes}
    (hindexed : Indexed fromSourceName pre indexes) :
    ∃ built, (post.zipIdx pre.length).foldlM (checkFile fromSourceName) indexes = .ok built ∧
      Indexed fromSourceName files built := by
  induction post generalizing pre indexes with
  | nil => exact ⟨indexes, rfl, by rwa [hsplit, List.append_nil]⟩
  | cons file post ih =>
    obtain ⟨id, name, content⟩ := file
    have hderives : sourceIdForName fromSourceName name = id := h.derives (id, name, content) (by rw [hsplit]; simp)
    have hnew : sourceOf pre id = none := by
      rw [← Option.not_isSome_iff_eq_none, isSome_sourceOf]
      rintro ⟨source, hsource⟩
      have hids := h.ids
      rw [hsplit, List.map_append] at hids
      exact (List.disjoint_of_nodup_append hids) (List.mem_map.2 ⟨_, hsource, rfl⟩) (by simp)
    have hindex : indexes.idToIndex id = none := by
      rw [← Option.not_isSome_iff_eq_none, hindexed.isSome, ← isSome_sourceOf, hnew, Option.isSome_none]
      exact Bool.false_ne_true
    have hname : indexes.nameToId name = none := by
      by_contra hsome
      obtain ⟨found, hfound⟩ := Option.ne_none_iff_exists'.1 hsome
      obtain ⟨rfl, hid⟩ := hindexed.names name found hfound
      rw [hderives, hindex] at hid
      cases hid
    obtain ⟨built, hbuilt, hfiles⟩ := ih (pre ++ [(id, name, content)]) (by rw [hsplit, List.append_assoc]; rfl)
      (hindexed.push hderives hnew)
    refine ⟨built, ?_, hfiles⟩
    rw [List.length_append, List.length_singleton] at hbuilt
    rw [List.zipIdx_cons, List.foldlM_cons, ← hbuilt]
    simp only [checkFile, hderives, hname, hindex, Option.isSome_none, ne_eq, not_true_eq_false, if_false,
      Bool.false_eq_true]
    rfl

theorem SourceMap.Consistent.decode {map : SourceMap Content} (h : map.Consistent fromSourceName) :
    ∃ decoded, SourceMap.decode fromSourceName map.encode = .ok decoded ∧ decoded.Consistent fromSourceName ∧
      decoded.files = map.files := by
  have hempty : Indexed fromSourceName ([] : List (SourceFile Content)) SourceIndexes.new := SourceMap.Consistent.new.indexed
  obtain ⟨built, hbuilt, hindexed⟩ := checkFile_foldlM h.filed [] rfl hempty
  have hchecked : checkedSourceIndexes fromSourceName map.files = .ok built := hbuilt
  refine ⟨{ built with files := map.files }, ?_, ⟨h.filed, hindexed⟩, rfl⟩
  unfold SourceMap.decode SourceMap.encode
  rw [hchecked]
  rfl

end

/-! ## Answers of a map -/

namespace SourceMap

def SameAnswers (fromSourceName : SourceName → SourceId) (map other : SourceMap Content) : Prop :=
  (∀ name, map.getId fromSourceName name = other.getId fromSourceName name) ∧
    (∀ id, map.getSource id = other.getSource id) ∧ (∀ id, map.name id = other.name id) ∧
    ∀ id start stop, map.trySpan id start stop = other.trySpan id start stop

theorem Consistent.sameAnswers {fromSourceName : SourceName → SourceId} {map other : SourceMap Content}
    (h : map.Consistent fromSourceName) (h' : other.Consistent fromSourceName)
    (hsources : ∀ id, sourceOf map.files id = sourceOf other.files id) : SameAnswers fromSourceName map other := by
  have hget : ∀ id, map.getSource id = other.getSource id := fun id => by
    rw [getSource_eq h.filed h.indexed, getSource_eq h'.filed h'.indexed, hsources]
  refine ⟨fun name => ?_, hget, fun id => ?_, fun id start stop => ?_⟩
  · rw [getId_eq h.indexed, getId_eq h'.indexed, hsources]
  · rw [SourceMap.name, SourceMap.name, hget]
  · rw [trySpan, trySpan, hget]

/-- What every sequence of calls leaves, and what the map answers before and after a save. -/
theorem run_answers (fromSourceName : SourceName → SourceId) (calls : List (SourceCall Content)) :
    (∀ file ∈ (SourceCall.run fromSourceName calls).files, sourceIdForName fromSourceName file.2.1 = file.1) ∧
      ((SourceCall.run fromSourceName calls).files.map Prod.fst).Nodup ∧
      ((SourceCall.run fromSourceName calls).files.map (·.2.1)).Nodup ∧
      (∀ more id source, (SourceCall.run fromSourceName calls).getSource id = some source →
        (SourceCall.run fromSourceName (calls ++ more)).getSource id = some source) ∧
      (∀ id, (SourceCall.run fromSourceName calls).getSource id =
        (calls.find? fun call => call.id fromSourceName = id).map (·.source fromSourceName)) ∧
      (∀ name, ((SourceCall.run fromSourceName calls).getId fromSourceName name).isSome ↔
        ∃ source, (sourceIdForName fromSourceName name, source) ∈ (SourceCall.run fromSourceName calls).files) ∧
      (∀ name id, (SourceCall.run fromSourceName calls).getId fromSourceName name = some id →
        id = sourceIdForName fromSourceName name) ∧
      (∃ decoded, decode fromSourceName (SourceCall.run fromSourceName calls).encode = .ok decoded ∧
        SameAnswers fromSourceName decoded (SourceCall.run fromSourceName calls)) ∧
      ∀ others : List (SourceCall Content),
        (∀ id, (others.filter fun call => call.id fromSourceName = id) =
          calls.filter fun call => call.id fromSourceName = id) →
        SameAnswers fromSourceName (SourceCall.run fromSourceName others) (SourceCall.run fromSourceName calls) := by
  obtain ⟨hconsistent, hsources⟩ : (SourceCall.run fromSourceName calls).Consistent fromSourceName ∧ _ :=
    SourceCall.run_spec calls
  have hget := getSource_eq hconsistent.filed hconsistent.indexed
  refine ⟨hconsistent.filed.derives, hconsistent.filed.ids, hconsistent.filed.names, fun more id source hsource => ?_,
    fun id => (hget id).trans (hsources id), fun name => ?_, fun name id hid => ?_, ?_, fun others hsame => ?_⟩
  · obtain ⟨hlater, hlaterSources⟩ : (SourceCall.run fromSourceName (calls ++ more)).Consistent fromSourceName ∧ _ :=
      SourceCall.run_spec (calls ++ more)
    rw [hget, hsources] at hsource
    rw [getSource_eq hlater.filed hlater.indexed, hlaterSources, List.find?_append, Option.map_or, hsource, Option.some_or]
  · rw [getId_eq hconsistent.indexed, ← isSome_sourceOf]
    split_ifs with hsome <;> simp [hsome]
  · rw [getId_eq hconsistent.indexed] at hid
    split_ifs at hid
    exact (Option.some.inj hid).symm
  · obtain ⟨decoded, hdecoded, hconsistent', hfiles⟩ := hconsistent.decode
    exact ⟨decoded, hdecoded, hconsistent'.sameAnswers hconsistent fun id => by rw [hfiles]⟩
  · obtain ⟨hother, hotherSources⟩ : (SourceCall.run fromSourceName others).Consistent fromSourceName ∧ _ :=
      SourceCall.run_spec others
    refine hother.sameAnswers hconsistent fun id => ?_
    rw [hotherSources, hsources, ← List.head?_filter, ← List.head?_filter, hsame]

def lengthHash (name : SourceName) : SourceId := ⟨.ofNat 64 name.length⟩

/-- A file and a source without a path, in both orders. -/
theorem run_answers_swapped : SameAnswers lengthHash
    (SourceCall.run lengthHash [.registerId ⟨9⟩ ['a'] 20, .add ['a'] 10])
    (SourceCall.run lengthHash [.add ['a'] 10, .registerId ⟨9⟩ ['a'] 20]) := by
  have hname : sourceIdForName lengthHash ['a'] = ⟨1⟩ := by decide
  refine (run_answers lengthHash [.add ['a'] 10, .registerId ⟨9⟩ ['a'] 20]).2.2.2.2.2.2.2.2 _ fun id => ?_
  have hadd : SourceCall.id lengthHash (.add ['a'] 10) = ⟨1⟩ := hname
  have hregister : SourceCall.id lengthHash (.registerId ⟨9⟩ ['a'] 20) = ⟨9⟩ := rfl
  have hne : (⟨9⟩ : SourceId) ≠ ⟨1⟩ := by decide
  simp only [List.filter_cons, List.filter_nil, hadd, hregister]
  by_cases hfirst : (⟨1⟩ : SourceId) = id
  · rw [← hfirst, decide_eq_false hne, if_neg Bool.false_ne_true, if_neg Bool.false_ne_true]
  · rw [decide_eq_false hfirst, if_neg Bool.false_ne_true, if_neg Bool.false_ne_true]

end SourceMap

end Rumoca.Core
