import PullScript.Value.Basic

namespace PullScript.Value

theorem copyAll_eq_map (values : List Value) : copyAll values = values.map copy := by
  induction values with
  | nil => rfl
  | cons value rest ih => simp [copyAll, ih]

@[simp]
theorem length_copyAll (values : List Value) : (copyAll values).length = values.length := by
  simp [copyAll_eq_map]

@[simp]
theorem copyAll_append (values others : List Value) :
    copyAll (values ++ others) = copyAll values ++ copyAll others := by
  simp [copyAll_eq_map]

theorem length_eq_of_copyAll_eq {values others : List Value} (h : copyAll values = copyAll others) :
    values.length = others.length := by
  rw [← length_copyAll, h, length_copyAll]

theorem map_copy_of_copyAll_eq {values others : List Value} (h : copyAll values = copyAll others) (k : Nat) :
    values[k]?.map copy = others[k]?.map copy := by
  rw [← List.getElem?_map, ← List.getElem?_map, ← copyAll_eq_map, ← copyAll_eq_map, h]

theorem kind_restarted (ty : Ty) (task : Task Value) : task.restarted.kind ty = task.kind ty := by
  cases task <;> rfl

theorem restarted_restarted (task : Task Value) : task.restarted.restarted = task.restarted := by
  cases task <;> rfl

@[simp]
theorem kind_copy (value : Value) : value.copy.kind = value.kind := by
  induction value using kind.induct with
  | _ => simp_all [copy, kind, kind_restarted]

mutual

@[simp]
theorem copy_copy (value : Value) : value.copy.copy = value.copy := by
  cases value <;> simp [copy, restarted_restarted, copy_copy, copyOption_copyOption, copyAll_copyAll]

theorem copyOption_copyOption (value : Option Value) :
    copyOption (copyOption value) = copyOption value := by
  cases value <;> simp [copyOption, copy_copy]

@[simp]
theorem copyAll_copyAll (values : List Value) : copyAll (copyAll values) = copyAll values := by
  cases values <;> simp [copyAll, copy_copy, copyAll_copyAll]

end

end PullScript.Value
